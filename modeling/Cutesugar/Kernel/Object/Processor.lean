import Cutesugar.Kernel.Arch.Acpi
import Cutesugar.Kernel.Misc.PciDirectory
import Cutesugar.Kernel.Object.ListBuilders

/-!
# Processors (`kernel/object/processor.c`)

Each processor of the MADT becomes an object in `./Devices`, named by the number of its creation: the digit
is written into the tenth byte of the name. The loop that brings the processors up finds them under the same
names.

- `createProcessor`, `registerProcessors`: the objects of some calls.
- `DevicesStart`: the kernel before the first one.
- `ProcessorsRegistered`: the directory and the objects after some calls.
- `resolveProcessor_spec`: what the path with a digit resolves to then.
-/

namespace Cutesugar.Kernel

open Lib Libc

variable {k : State} {s s' : ProcessorState} {fuel devices i o : ℕ}

/-! ## `CreateProcessor` -/

/-- `"Processor"`. -/
def processorStem : List UInt8 := [80, 114, 111, 99, 101, 115, 115, 111, 114]

/-- The 32 bytes that are copied from `"Processor\0\0\0\0"`: the literal with its own NUL, and what stands
behind it. -/
def processorLiteral (behind : List.Vector UInt8 18) : List.Vector UInt8 32 :=
  ⟨processorStem ++ (List.replicate 5 0 ++ behind.toList), by simp [processorStem]⟩

/-- The kernel, and `processor_count`. -/
structure ProcessorState where
  kernel : State
  count : ℕ

/-- `CreateProcessor`. -/
def createProcessor (fuel : ℕ) (behind : List.Vector UInt8 18) (s : ProcessorState) (root : ℕ)
    (c : ProcessorCall) : Option (ℕ × ProcessorState) := do
  let (newProcessor, k) := malloc s.kernel
  let name := copyName (k.objects newProcessor).header.name (processorLiteral behind)
  let name := name.set 9 (UInt8.ofNat (48 + (s.count + 1)))
  -- the fields `id` and `flags` stand where a directory has its header list
  let k := k.setObject newProcessor
    { header := ⟨name, 2⟩, headerList := c.id.toNat + 2 ^ 32 * c.flags.toNat }
  let k ← directoryAddChild fuel k root newProcessor
  some (newProcessor, { kernel := k, count := s.count + 1 })

/-- All calls that the walk over the MADT makes. -/
def registerProcessors (fuel : ℕ) (behind : List.Vector UInt8 18) (root : ℕ) :
    ProcessorState → List ProcessorCall → Option ProcessorState
  | s, [] => some s
  | s, c :: calls => do
    let (_, s) ← createProcessor fuel behind s root c
    registerProcessors fuel behind root s calls

/-- `processor->id`. -/
def processorId (k : State) (o : ℕ) : UInt32 := UInt32.ofNat (k.objects o).headerList

/-- `processor_str`, with the digit of an index. -/
def processorPath (i : ℕ) : List UInt8 :=
  [46, 47] ++ Pci.devicesName ++ 47 :: processorStem ++ [UInt8.ofNat (48 + i), 0, 0]

/-- The lookup of the processor with an index: the object, or the null pointer. -/
def resolveProcessor (fuel : ℕ) (k : State) (i : ℕ) : Except Fault ℕ := do
  let root ← (objGetRootObject fuel k).elim (.error .stuck) .ok
  resolveObjectName fuel k fuel root (some (processorPath i))

/-! ## The registration -/

/-- The directories with their objects: the root has `Devices`, and this the processors. -/
def devicesAdded (root devices : ℕ) (objs : List ℕ) : ℕ → List ℕ :=
  Function.update (Function.update (fun _ => []) root [devices]) devices objs

/-- The kernel that `InitializeObjectManager` leaves behind: the root object has one directory, `Devices`, and
this is empty. The links of the blocks to come hold zero. -/
structure DevicesStart (k : State) (devices : ℕ) : Prop where
  blocks : Blocks k
  clean : ∀ i, k.mallocs ≤ i → k.nextEntry (k.blocks i) = 0
  privileged : Privileged k
  rootNonnull : k.rootObject ≠ 0
  devicesNonnull : devices ≠ 0
  ne : k.rootObject ≠ devices
  type : ∀ d ∈ [k.rootObject, devices], (k.objects d).header.type = 1
  name : objectName k devices = Pci.devicesName
  built : ∃ entries, DirsBuilt k [k.rootObject, devices] (devicesAdded k.rootObject devices []) entries

/-- The name of the processor with a number of one digit. -/
def processorName (i : ℕ) : List UInt8 := processorStem ++ [UInt8.ofNat (48 + i)]

/-- The object of a call. -/
structure ProcessorObject (s : State) (devices i : ℕ) (c : ProcessorCall) (o : ℕ) : Prop where
  taken : Taken s o
  ne : o ≠ devices
  id : processorId s o = c.id
  name : i < 9 → objectName s o = processorName (i + 1)

/-- The state after some calls, with the objects of the processors. -/
structure ProcessorsRegistered (k : State) (devices : ℕ) (s : ProcessorState) (calls : List ProcessorCall)
    (objs : List ℕ) : Prop where
  count : s.count = calls.length
  rest : ∃ n objects lists,
    s.kernel = { k with mallocs := k.mallocs + n, objects := objects, lists := lists }
  clean : ∀ i, s.kernel.mallocs ≤ i → s.kernel.nextEntry (k.blocks i) = 0
  header : ∀ d ∈ [k.rootObject, devices], (s.kernel.objects d).header = (k.objects d).header
  built : ∃ entries,
    DirsBuilt s.kernel [k.rootObject, devices] (devicesAdded k.rootObject devices objs) entries
  length : objs.length = calls.length
  object : ∀ i o c, objs[i]? = some o → calls[i]? = some c → ProcessorObject s.kernel devices i c o

variable {c : ProcessorCall} {calls : List ProcessorCall} {objs : List ℕ} {behind : List.Vector UInt8 18}

theorem DevicesStart.registered (h : DevicesStart k devices) :
    ProcessorsRegistered k devices { kernel := k, count := 0 } [] [] where
  count := rfl
  rest := ⟨0, k.objects, k.lists, rfl⟩
  clean := h.clean
  header _ _ := rfl
  built := h.built
  length := rfl
  object _ _ _ ho := nomatch ho

theorem ProcessorsRegistered.blocks (h : ProcessorsRegistered k devices s calls objs) :
    s.kernel.blocks = k.blocks := by
  obtain ⟨n, objects, lists, hs⟩ := h.rest
  rw [hs]

theorem ProcessorsRegistered.mallocs (h : ProcessorsRegistered k devices s calls objs) :
    k.mallocs ≤ s.kernel.mallocs := by
  obtain ⟨n, objects, lists, hs⟩ := h.rest
  rw [hs]
  exact Nat.le_add_right ..

/-! ### One call -/

/-- The kernel with the new object, before it is added to the directory. -/
def withProcessor (behind : List.Vector UInt8 18) (s : ProcessorState) (c : ProcessorCall) : State :=
  let (newProcessor, k) := malloc s.kernel
  let name := copyName (k.objects newProcessor).header.name (processorLiteral behind)
  k.setObject newProcessor
    { header := ⟨name.set 9 (UInt8.ofNat (48 + (s.count + 1))), 2⟩
      headerList := c.id.toNat + 2 ^ 32 * c.flags.toNat }

theorem createProcessor_eq (fuel : ℕ) (behind : List.Vector UInt8 18) (s : ProcessorState) (root : ℕ)
    (c : ProcessorCall) :
    createProcessor fuel behind s root c =
      (directoryAddChild fuel (withProcessor behind s c) root (s.kernel.blocks s.kernel.mallocs)).map
        fun k => (s.kernel.blocks s.kernel.mallocs, { kernel := k, count := s.count + 1 }) := by
  rw [Option.map_eq_bind]
  rfl

theorem withProcessor_objects (hne : o ≠ s.kernel.blocks s.kernel.mallocs) :
    (withProcessor behind s c).objects o = s.kernel.objects o :=
  Function.update_of_ne hne ..

theorem withProcessor_object (behind : List.Vector UInt8 18) (s : ProcessorState) (c : ProcessorCall) :
    (withProcessor behind s c).objects (s.kernel.blocks s.kernel.mallocs) =
      { header :=
          ⟨(copyName (s.kernel.objects (s.kernel.blocks s.kernel.mallocs)).header.name
            (processorLiteral behind)).set 9 (UInt8.ofNat (48 + (s.count + 1))), 2⟩
        headerList := c.id.toNat + 2 ^ 32 * c.flags.toNat } :=
  Function.update_self ..

theorem processorId_withProcessor :
    processorId (withProcessor behind s c) (s.kernel.blocks s.kernel.mallocs) = c.id := by
  apply UInt32.toNat_inj.mp
  rw [processorId, withProcessor_object, UInt32.toNat_ofNat', Nat.add_mul_mod_self_left]
  exact Nat.mod_eq_of_lt c.id.toNat_lt

/-- A number of one digit gives the name its digit. -/
theorem objectName_withProcessor (h : s.count < 9) :
    objectName (withProcessor behind s c) (s.kernel.blocks s.kernel.mallocs) =
      processorName (s.count + 1) := by
  have hdigit : (0 : UInt8) ≠ UInt8.ofNat (48 + (s.count + 1)) := by
    intro heq
    have hnat := congrArg UInt8.toNat heq
    rw [UInt8.toNat_ofNat'] at hnat
    change 0 = _ at hnat
    omega
  rw [objectName, withProcessor_object, List.Vector.toList_set]
  change cString (processorStem ++ UInt8.ofNat (48 + (s.count + 1)) :: 0 :: _) = _
  rw [List.append_cons, cString_append]
  · rfl
  · rw [List.mem_append, List.mem_singleton, not_or]
    exact ⟨by decide, hdigit⟩

theorem devicesAdded_append (root devices o : ℕ) (objs : List ℕ) :
    Function.update (devicesAdded root devices objs) devices (devicesAdded root devices objs devices ++ [o]) =
      devicesAdded root devices (objs ++ [o]) := by
  rw [devicesAdded, Function.update_self, Function.update_idem]
  rfl

/-- **Step lemma**: the next processor is added behind the others. -/
theorem ProcessorsRegistered.append (h : ProcessorsRegistered k devices s calls objs)
    (hstart : DevicesStart k devices)
    (hadd : directoryAddChild fuel (withProcessor behind s c) devices (s.kernel.blocks s.kernel.mallocs) =
      some s'.kernel) (hcount : s'.count = s.count + 1) :
    ProcessorsRegistered k devices s' (calls ++ [c]) (objs ++ [s.kernel.blocks s.kernel.mallocs]) := by
  obtain ⟨entries, hbuilt⟩ := h.built
  have hb : Blocks s.kernel := hstart.blocks.of_eq h.blocks
  have hfresh : ∀ d ∈ [k.rootObject, devices], d ≠ s.kernel.blocks s.kernel.mallocs :=
    fun d hd => hbuilt.fresh d hd _ le_rfl
  -- the object is none of the directories
  have hbuilt₁ : DirsBuilt (withProcessor behind s c) [k.rootObject, devices]
      (devicesAdded k.rootObject devices objs) entries := by
    refine hbuilt.mono ?_ rfl rfl (Nat.le_succ _)
    intro d hd
    rw [withProcessor_objects (hfresh d hd)]
  have hb₁ : Blocks (withProcessor behind s c) := hb.of_eq rfl
  have hspec := directoryAddChild_spec hadd
  have hheader := directoryAddChild_header hadd
  obtain ⟨objects, lists, hs'⟩ := hspec.rest
  have hmem : devices ∈ [k.rootObject, devices] := by simp
  have hnew : (withProcessor behind s c).nextEntry
      ((withProcessor behind s c).blocks (withProcessor behind s c).mallocs) = 0 := by
    have hclean := h.clean (s.kernel.mallocs + 1) (Nat.le_succ _)
    rw [← h.blocks] at hclean
    exact hclean
  have hbuilt' := hbuilt₁.addChild hb₁ hmem hspec hnew
  rw [devicesAdded_append] at hbuilt'
  have hblocks : s'.kernel.blocks = s.kernel.blocks := by rw [hs']; rfl
  have hmallocs : s'.kernel.mallocs = s.kernel.mallocs + 2 := by rw [hs']; rfl
  refine { count := ?_, rest := ?_, clean := ?_, header := ?_, built := ⟨_, hbuilt'⟩, length := ?_, object := ?_ }
  · rw [hcount, h.count, List.length_append, List.length_singleton]
  · obtain ⟨n, objects', lists', hs⟩ := h.rest
    refine ⟨n + 2, objects, lists, ?_⟩
    rw [hs', withProcessor, hs]
    rfl
  · intro i hi
    rw [hmallocs] at hi
    have hframe := (appendNode_spec (hbuilt₁.chain devices hmem) (hbuilt₁.nodup devices hmem)
      (fun t ht => (hbuilt₁.taken devices hmem t ht).nonnull hb₁)
      (fun ht => (hbuilt₁.taken devices hmem _ ht).ne_block hb₁ le_rfl rfl) hspec.append).2
    rw [hframe]
    · exact h.clean i (by omega)
    · intro ht
      refine (hbuilt₁.taken devices hmem _ ht).ne_block hb₁ (i := i) ?_ ?_
      · change s.kernel.mallocs + 1 ≤ i
        omega
      · change _ = s.kernel.blocks i
        rw [h.blocks]
  · intro d hd
    rw [hheader, withProcessor_objects (hfresh d hd)]
    exact h.header d hd
  · rw [List.length_append, List.length_append, h.length]
    rfl
  · intro i o c' ho hc
    have htaken : Taken s'.kernel (s.kernel.blocks s.kernel.mallocs) :=
      taken_next (k := 0) hblocks (by omega)
    have hname {x : ℕ} (hx : x ≠ devices) : s'.kernel.objects x = (withProcessor behind s c).objects x :=
      hspec.objects x hx
    rcases Nat.lt_or_ge i objs.length with hlt | hge
    · rw [List.getElem?_append_left hlt] at ho
      rw [List.getElem?_append_left (h.length ▸ hlt)] at hc
      have hold := h.object i o c' ho hc
      have hne : o ≠ s.kernel.blocks s.kernel.mallocs := hold.taken.ne_block hb le_rfl
      have hsame : s'.kernel.objects o = s.kernel.objects o := by
        rw [hname hold.ne, withProcessor_objects hne]
      refine { taken := hold.taken.mono hblocks (by omega), ne := hold.ne, id := ?_, name := ?_ }
      · rw [processorId, hsame]
        exact hold.id
      · intro hi
        rw [objectName, hsame]
        exact hold.name hi
    · -- the new object
      have hlast : i = objs.length := by
        have hlt := (List.getElem?_eq_some_iff.mp ho).1
        rw [List.length_append, List.length_singleton] at hlt
        omega
      subst hlast
      rw [List.getElem?_concat_length] at ho
      rw [h.length, List.getElem?_concat_length] at hc
      obtain rfl := Option.some.inj ho
      obtain rfl := Option.some.inj hc
      have hne : s.kernel.blocks s.kernel.mallocs ≠ devices := (hfresh devices hmem).symm
      refine { taken := htaken, ne := hne, id := ?_, name := ?_ }
      · rw [processorId, hname hne]
        exact processorId_withProcessor
      · intro hi
        rw [h.length, ← h.count] at hi ⊢
        rw [objectName, hname hne]
        exact objectName_withProcessor hi

/-- A call returns, with a round for each processor before. -/
theorem ProcessorsRegistered.exists_create (h : ProcessorsRegistered k devices s calls objs)
    (hstart : DevicesStart k devices) (behind : List.Vector UInt8 18) (c : ProcessorCall)
    (hfuel : calls.length ≤ fuel) :
    ∃ o s', createProcessor fuel behind s devices c = some (o, s') ∧
      ProcessorsRegistered k devices s' (calls ++ [c]) (objs ++ [o]) := by
  obtain ⟨entries, hbuilt⟩ := h.built
  have hmem : devices ∈ [k.rootObject, devices] := by simp
  have hchain : Chain (withProcessor behind s c).nextEntry
      ((withProcessor behind s c).objects devices).headerList (entries devices) 0 := by
    rw [withProcessor_objects (hbuilt.fresh devices hmem _ le_rfl)]
    exact hbuilt.chain devices hmem
  have hentries : (entries devices).length = calls.length := by
    have hitems := congrArg List.length (hbuilt.items devices hmem)
    rw [List.length_map, devicesAdded, Function.update_self, h.length] at hitems
    exact hitems
  obtain ⟨k', hadd⟩ := directoryAddChild_isSome (o := s.kernel.blocks s.kernel.mallocs)
    hstart.devicesNonnull hchain (hentries.le.trans hfuel)
  refine ⟨_, { kernel := k', count := s.count + 1 }, ?_, h.append hstart hadd rfl⟩
  rw [createProcessor_eq, hadd]
  rfl

/-- **Run lemma**: all calls return. -/
theorem ProcessorsRegistered.exists_register {more : List ProcessorCall}
    (h : ProcessorsRegistered k devices s calls objs) (hstart : DevicesStart k devices)
    (behind : List.Vector UInt8 18) (hfuel : (calls ++ more).length ≤ fuel) :
    ∃ s' objs', registerProcessors fuel behind devices s more = some s' ∧
      ProcessorsRegistered k devices s' (calls ++ more) objs' := by
  induction more generalizing s calls objs with
  | nil =>
    rw [List.append_nil]
    exact ⟨s, objs, rfl, h⟩
  | cons c more ih =>
    have hsplit : calls ++ c :: more = calls ++ [c] ++ more := by simp
    rw [hsplit] at hfuel ⊢
    have hroom : calls.length ≤ fuel := by
      rw [List.length_append, List.length_append] at hfuel
      omega
    obtain ⟨o, s₁, hcreate, hnext⟩ := h.exists_create hstart behind c hroom
    obtain ⟨s', objs', hrest, hregistered⟩ := ih hnext hfuel
    refine ⟨s', objs', ?_, hregistered⟩
    rw [registerProcessors, hcreate]
    exact hrest

/-! ## The lookup -/

theorem processorName_inj {i j : ℕ} (hi : i ≤ 9) (hj : j ≤ 9) (h : processorName i = processorName j) :
    i = j := by
  have hdigit := congrArg UInt8.toNat (List.singleton_inj.mp (List.append_cancel_left h))
  rw [UInt8.toNat_ofNat', UInt8.toNat_ofNat'] at hdigit
  omega

theorem isComponent_processorName (hi : i ≤ 9) : IsComponent (processorName i) := by
  interval_cases i <;> decide

/-- The names in front of a processor's own are others. -/
theorem ProcessorsRegistered.name_ne (h : ProcessorsRegistered k devices s calls objs) {j : ℕ} (hi : i ≤ 9)
    (hj : j < i - 1) {x : ℕ} (hx : objs[j]? = some x) : objectName s.kernel x ≠ processorName i := by
  have hlt : j < calls.length := h.length ▸ (List.getElem?_eq_some_iff.mp hx).1
  have hobject := h.object j x calls[j] hx (List.getElem?_eq_getElem hlt)
  rw [hobject.name (by omega)]
  intro heq
  have hnumber := processorName_inj (by omega) hi heq
  omega

/-- **The search in the directory**: the processor with the number, or the end of the list. -/
theorem ProcessorsRegistered.findChild (h : ProcessorsRegistered k devices s calls objs)
    (hstart : DevicesStart k devices) (hi : 1 ≤ i) (hi' : i ≤ 9) (hfuel : 10 ≤ fuel) :
    ∃ t, Kernel.findChild s.kernel (pad 32 (processorName i)) fuel (s.kernel.objects devices).headerList =
      .ok t ∧ (if t = 0 then 0 else (s.kernel.lists t).item) = (objs[i - 1]?).getD 0 := by
  obtain ⟨entries, hbuilt⟩ := h.built
  have hb : Blocks s.kernel := hstart.blocks.of_eq h.blocks
  have hmem : devices ∈ [k.rootObject, devices] := by simp
  have hchain := hbuilt.chain devices hmem
  have hitems : (entries devices).map (fun t => (s.kernel.lists t).item) = objs := by
    rw [hbuilt.items devices hmem, devicesAdded, Function.update_self]
  have hitem {j t : ℕ} (ht : (entries devices)[j]? = some t) : objs[j]? = some (s.kernel.lists t).item := by
    rw [← hitems, List.getElem?_map, ht]
    rfl
  have hnonnull {j x : ℕ} (hx : objs[j]? = some x) : x ≠ 0 := by
    have hlt : j < calls.length := h.length ▸ (List.getElem?_eq_some_iff.mp hx).1
    exact (h.object j x calls[j] hx (List.getElem?_eq_getElem hlt)).taken.nonnull hb
  have hcomponent := isComponent_processorName hi'
  have hlen : (processorName i).length < 32 := Nat.lt_succ_of_le hcomponent.length
  have hcString : cString (pad 32 (processorName i)) = processorName i := cString_pad hlen hcomponent.nul
  -- the entries in front of the one with the number
  have hfront : ∀ x ∈ (entries devices).take (i - 1), x ≠ 0 ∧ (s.kernel.lists x).item ≠ 0 ∧
      childName s.kernel (s.kernel.lists x).item ≠ cString (pad 32 (processorName i)) := by
    intro x hx
    obtain ⟨j, hj⟩ := List.mem_iff_getElem?.mp hx
    rw [List.getElem?_take] at hj
    split_ifs at hj with hlt
    have hobject := hitem hj
    refine ⟨(hbuilt.taken devices hmem x (List.mem_of_getElem? hj)).nonnull hb, hnonnull hobject, ?_⟩
    rw [hcString]
    exact fun heq => h.name_ne hi' hlt hobject ((childName_eq_iff hlen).mp heq)
  rcases hget : (entries devices)[i - 1]? with _ | t
  · -- there are fewer processors
    have hshort : (entries devices).length ≤ i - 1 := List.getElem?_eq_none_iff.mp hget
    rw [List.take_of_length_le hshort] at hfront
    have hnone : objs[i - 1]? = none := by
      rw [← hitems, List.getElem?_map, hget]
      rfl
    refine ⟨0, findChild_end (length_pad hlen.le) hchain hfront (by omega), ?_⟩
    rw [hnone]
    rfl
  · have hlt : i - 1 < (entries devices).length := (List.getElem?_eq_some_iff.mp hget).1
    have hobject := hitem hget
    have ht : t ≠ 0 := (hbuilt.taken devices hmem t (List.mem_of_getElem? hget)).nonnull hb
    have hsplit : (entries devices).take (i - 1) ++ t :: (entries devices).drop i = entries devices := by
      have hdrop := List.drop_eq_getElem_cons hlt
      rw [(List.getElem?_eq_some_iff.mp hget).2, Nat.sub_add_cancel hi] at hdrop
      rw [← hdrop, List.take_append_drop]
    rw [← hsplit] at hchain
    obtain ⟨b, hbefore, rfl, -⟩ := chain_append.mp hchain
    have hcall : i - 1 < calls.length := h.length ▸ (List.getElem?_eq_some_iff.mp hobject).1
    have hname := (h.object _ _ calls[i - 1] hobject (List.getElem?_eq_getElem hcall)).name (by omega)
    rw [Nat.sub_add_cancel hi] at hname
    refine ⟨b, findChild_of_chain (length_pad hlen.le) hbefore hfront ht (hnonnull hobject) ?_ ?_, ?_⟩
    · rw [hcString]
      exact (childName_eq_iff hlen).mpr hname
    · rw [List.length_take]
      omega
    · rw [if_neg ht, hobject]
      rfl

/-- `Devices` is found in the root object. -/
theorem ProcessorsRegistered.finds_devices (h : ProcessorsRegistered k devices s calls objs)
    (hstart : DevicesStart k devices) (hfuel : 10 ≤ fuel) :
    Finds s.kernel fuel k.rootObject Pci.devicesName devices := by
  obtain ⟨entries, hbuilt⟩ := h.built
  have hb : Blocks s.kernel := hstart.blocks.of_eq h.blocks
  have hmem : k.rootObject ∈ [k.rootObject, devices] := by simp
  have hchain := hbuilt.chain _ hmem
  have hitems := hbuilt.items _ hmem
  rw [devicesAdded, Function.update_of_ne hstart.ne, Function.update_self] at hitems
  obtain ⟨t, hentries, hitem⟩ := List.map_eq_singleton_iff.mp hitems
  rw [hentries] at hchain
  obtain ⟨ht, -⟩ := hchain
  have hnonnull : t ≠ 0 := (hbuilt.taken _ hmem t (hentries ▸ List.mem_singleton_self t)).nonnull hb
  have hname : childName s.kernel devices = Pci.devicesName := by
    rw [childName_eq_iff (by decide), objectName, h.header devices (by simp)]
    exact hstart.name
  -- no entry is in front of it
  have hfront : ∀ x ∈ ([] : List ℕ), x ≠ 0 ∧ (s.kernel.lists x).item ≠ 0 ∧
      childName s.kernel (s.kernel.lists x).item ≠ cString (pad 32 Pci.devicesName) :=
    fun x hx => absurd hx List.not_mem_nil
  have hlen : (pad 32 Pci.devicesName).length = 32 := rfl
  have hfirst : Chain s.kernel.nextEntry (s.kernel.objects k.rootObject).headerList [] t := ht
  refine ⟨t, findChild_of_chain hlen hfirst hfront hnonnull ?_ ?_ ((Nat.succ_pos 9).trans_le hfuel), hnonnull, hitem⟩
  · rw [hitem]
    exact hstart.devicesNonnull
  · rw [hitem, hname]
    rfl

/-- **What the path with a digit resolves to**: the processor with this number, or the null pointer. -/
theorem ProcessorsRegistered.resolveProcessor (h : ProcessorsRegistered k devices s calls objs)
    (hstart : DevicesStart k devices) (hcheck : objGetRootObject fuel k = some k.rootObject)
    (hfuel : 10 ≤ fuel) (hi : 1 ≤ i) (hi' : i ≤ 9) :
    Kernel.resolveProcessor fuel s.kernel i = .ok ((objs[i - 1]?).getD 0) := by
  obtain ⟨depth, rfl⟩ : ∃ depth, fuel = depth + 3 := ⟨fuel - 3, by omega⟩
  have hroot : objGetRootObject (depth + 3) s.kernel = some s.kernel.rootObject := by
    obtain ⟨n, objects, lists, hs⟩ := h.rest
    rw [hs]
    exact hcheck
  have hsame : s.kernel.rootObject = k.rootObject := by
    obtain ⟨n, objects, lists, hs⟩ := h.rest
    rw [hs]
  have htype : (s.kernel.objects devices).header.type = 1 := by
    rw [h.header devices (by simp)]
    exact hstart.type devices (by simp)
  -- the path has a dot and two components
  have hcomponent := isComponent_processorName hi'
  have hcomps : ∀ x ∈ [Pci.devicesName, processorName i], IsComponent x := by
    intro x hx
    rcases List.mem_pair.mp hx with rfl | rfl
    · decide
    · exact hcomponent
  have hlen : (joinPath [Pci.devicesName, processorName i]).length ≤ 255 := by
    simp [joinPath, processorName, processorStem, Pci.devicesName]
  have hfits : Fits [Pci.devicesName, processorName i] := by
    simp [Fits, joinPath, processorName, processorStem]
  obtain ⟨t, hfind, hresult⟩ := h.findChild hstart hi hi' hfuel
  have hstarts : Starts s.kernel s.kernel.rootObject := .inl (hsame ▸ hstart.rootNonnull)
  have hdot : resolveObjectName (depth + 3) s.kernel (depth + 2 + 1) s.kernel.rootObject
      (some ([46, 47] ++ joinPath [Pci.devicesName, processorName i] ++ 0 :: [0])) = _ :=
    resolveObjectName_dot hstarts hroot (joinPath_nul hcomps) [0]
  have hshort : (processorName i).length < 256 := hcomponent.length.trans_lt (by decide)
  -- three activations: the root object, `Devices`, and the search for the processor
  rw [if_pos hlen, pad_eq (Nat.lt_succ_of_le hlen), hsame,
    (h.finds_devices hstart (by omega)).resolve hcomps (by simp) hstart.rootNonnull hfits htype, joinPath,
    pad_eq hshort, resolveObjectName_last hcomponent hstart.devicesNonnull, hfind] at hdot
  rw [Kernel.resolveProcessor, hroot, hsame]
  exact hdot.trans (congrArg Except.ok hresult)

/-! ## A kernel with the directory -/

/-- The directories `.` and `./Devices`. -/
def devicesObjects (o : ℕ) : Directory :=
  if o = 0x1000 then ⟨⟨nameField [46] short_dot, 1⟩, 0x210000⟩
  else if o = 0x200000 then ⟨⟨nameField Pci.devicesName Pci.short_devicesName, 1⟩, 0⟩
  else ⟨⟨nameField [] short_nil, 0⟩, 0⟩

/-- The kernel behind the creation of `Devices`, which took two blocks. -/
def bootDevices : State :=
  { bootKernel with
    objects := devicesObjects
    lists := fun x => if x = 0x210000 then ⟨0x200000, 0⟩ else ⟨0, 0⟩
    mallocs := 2 }

theorem blocks_bootDevices : Blocks bootDevices :=
  ⟨bootKernel_start.blocks.nonnull, bootKernel_start.blocks.injective⟩

theorem nextEntry_bootDevices (x : ℕ) : bootDevices.nextEntry x = 0 := by
  simp only [State.nextEntry, bootDevices]
  split_ifs
  · rfl
  · rfl

theorem built_bootDevices : DirsBuilt bootDevices [0x1000, 0x200000] (devicesAdded 0x1000 0x200000 [])
    (devicesAdded 0x1000 0x210000 []) := by
  have hroot : devicesAdded 0x1000 0x210000 [] 0x1000 = [0x210000] := rfl
  have hdevices : devicesAdded 0x1000 0x210000 [] 0x200000 = [] := rfl
  have hentry {d t : ℕ} (hd : d ∈ [0x1000, 0x200000]) (ht : t ∈ devicesAdded 0x1000 0x210000 [] d) :
      d = 0x1000 ∧ t = 0x210000 := by
    rcases List.mem_pair.mp hd with rfl | rfl
    · exact ⟨rfl, List.mem_singleton.mp (hroot ▸ ht)⟩
    · exact absurd (hdevices ▸ ht) List.not_mem_nil
  refine { chain := ?_, items := ?_, taken := ?_, nodup := ?_, apart := ?_, fresh := ?_ }
  · intro d hd
    rcases List.mem_pair.mp hd with rfl | rfl
    · exact ⟨rfl, rfl⟩
    · rfl
  · intro d hd
    rcases List.mem_pair.mp hd with rfl | rfl
    · rfl
    · rfl
  · intro d hd t ht
    obtain ⟨-, rfl⟩ := hentry hd ht
    exact ⟨1, by decide, rfl⟩
  · intro d hd
    rcases List.mem_pair.mp hd with rfl | rfl
    · exact List.nodup_singleton _
    · exact List.nodup_nil
  · intro d hd d' hd' t ht ht'
    rw [(hentry hd ht).1, (hentry hd' ht').1]
  · intro d hd i hi heq
    have hblock : bootDevices.blocks i = 0x200000 + 0x10000 * i := rfl
    have hmallocs : bootDevices.mallocs = 2 := rfl
    have hle : d ≤ 0x200000 := by
      rcases List.mem_pair.mp hd with rfl | rfl
      · decide
      · decide
    omega

theorem bootDevices_start : DevicesStart bootDevices 0x200000 where
  blocks := blocks_bootDevices
  clean i _ := nextEntry_bootDevices _
  privileged := ⟨0, rfl⟩
  rootNonnull := by decide
  devicesNonnull := by decide
  ne := by decide
  type := by decide
  name := by decide
  built := ⟨_, built_bootDevices⟩

end Cutesugar.Kernel
