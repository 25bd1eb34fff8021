import Cutesugar.Kernel.Io.Iomgr

/-!
# Names of devices

A device whose name has fewer than 8 bytes keeps the rest of the link of the free stack behind its
name, unless the byte behind the name happens to be zero. So it is entered into `./Devices` under
another name and is not found again.

## Structure

- `Registry`: the directory `./Devices` in the heap, with its blocks.
- `Registry.resolve`: paths below `./Devices`; `deviceName_iff`: the name a new device has.
- `IoEvent`, `Allowed`, `IoInv`: runs of the heap with the creation of devices.
- `device_resolves_iff`: the devices that resolve.
- `ramdisk_not_found`: the ramdisk of `IoCreateRamdisk`.
-/

namespace Cutesugar.Kernel.Io

open Lib Lib.Memory Libc Malloc

variable {S : PageSupply} {s s' : HeapRun} {clients clients' : List (ℕ × ℕ)} {kernel : State}
  {root devices entry node p n fuel depth : ℕ} {entries : List ℕ} {name rest : List UInt8}
  {cs : List (List UInt8)}

/-! ## The object manager -/

/-- A block handed out to the object manager. -/
def Kept (s : HeapRun) (clients : List (ℕ × ℕ)) (x : ℕ × ℕ) : Prop := x ∈ s.live ∧ x ∉ clients

/-- The root object with the directory `Devices` as its first child, and the entries of that
directory. -/
structure Registry (s : HeapRun) (clients : List (ℕ × ℕ)) (root devices entry : ℕ)
    (entries : List ℕ) : Prop where
  keptRoot : Kept s clients (root, 96)
  keptEntry : Kept s clients (entry, 16)
  keptDevices : Kept s clients (devices, 96)
  apart : devices ≠ root
  rootType : s.heap.mem.load64 (root + 72) = 1
  rootList : s.heap.mem.load64 (root + 88) = entry
  item : s.heap.mem.load64 entry = devices
  type : s.heap.mem.load64 (devices + 72) = 1
  name : cString (s.heap.mem.bytes devices 32) = devicesName
  list : HeaderList s devices entries
  own : ∀ t ∈ entries, (t, 16) ∉ clients
  items : ∀ t ∈ entries, Kept s clients (s.heap.mem.load64 t, 112)

/-- The object manager reads and writes its own blocks only. -/
theorem Registry.congr (h : Registry s clients root devices entry entries)
    (hkept : ∀ x, Kept s clients x → Kept s' clients' x)
    (hsame : ∀ x, Kept s clients x → x.2 < 2048 → SameAt s.heap.mem s'.heap.mem x) :
    Registry s' clients' root devices entry entries := by
  have hroot := hsame _ h.keptRoot (show 96 < 2048 by decide)
  have hentry := hsame _ h.keptEntry (show 16 < 2048 by decide)
  have hdevices := hsame _ h.keptDevices (show 96 < 2048 by decide)
  have hnode : ∀ t ∈ entries, Kept s clients (t, 16) := fun t ht => ⟨h.list.live t ht, h.own t ht⟩
  have hnodes : ∀ t ∈ entries, SameAt s.heap.mem s'.heap.mem (t, 16) := fun t ht =>
    hsame _ (hnode t ht) (show 16 < 2048 by decide)
  have hitem : ∀ t ∈ entries, s'.heap.mem.load64 t = s.heap.mem.load64 t :=
    fun t ht => (hnodes t ht).load64 (i := 0) (show 0 + 8 ≤ 16 by decide)
  refine { keptRoot := hkept _ h.keptRoot, keptEntry := hkept _ h.keptEntry,
           keptDevices := hkept _ h.keptDevices, apart := h.apart, rootType := ?_, rootList := ?_, item := ?_,
           type := ?_, name := ?_, list := { chain := ?_, live := ?_, nodup := h.list.nodup },
           own := ?_, items := ?_ }
  · exact (hroot.load64 (show 72 + 8 ≤ 96 by decide)).trans h.rootType
  · exact (hroot.load64 (show 88 + 8 ≤ 96 by decide)).trans h.rootList
  · exact (hentry.load64 (i := 0) (show 0 + 8 ≤ 16 by decide)).trans h.item
  · exact (hdevices.load64 (show 72 + 8 ≤ 96 by decide)).trans h.type
  · have hbytes : s'.heap.mem.bytes devices 32 = s.heap.mem.bytes devices 32 :=
      bytes_congr fun a ha ha' => hdevices a ha (by dsimp only; omega)
    rw [hbytes]
    exact h.name
  · rw [hdevices.load64 (show 88 + 8 ≤ 96 by decide)]
    exact h.list.chain.congr fun t ht => (hnodes t ht).load64 (show 8 + 8 ≤ 16 by decide)
  · exact fun t ht => (hkept _ (hnode t ht)).1
  · exact fun t ht => (hkept _ (hnode t ht)).2
  · intro t ht
    rw [hitem t ht]
    exact hkept _ (h.items t ht)

/-! ## Paths below `./Devices` -/

theorem isComponent_devicesName : IsComponent devicesName := by decide

/-- The directory is the first child of the root object. -/
theorem Registry.find_devices (h : Registry s clients root devices entry entries)
    (hf : FreshStore S s) (hfuel : 0 < fuel) :
    findChild (onHeap kernel s.heap.mem) (pad 32 devicesName) fuel entry = .ok entry := by
  have hchain : Chain (onHeap kernel s.heap.mem).nextEntry entry [] entry := rfl
  have hitem : ((onHeap kernel s.heap.mem).lists entry).item = devices := h.item
  refine findChild_of_chain (length_pad (by decide)) hchain (by simp) (hf.ne_zero h.keptEntry.1) ?_ ?_
    hfuel
  · rw [hitem]
    exact hf.ne_zero h.keptDevices.1
  · rw [hitem, childName_onHeap, h.name]
    decide

theorem objGetRootObject_eq {r : ℕ} (hpriv : Privileged kernel)
    (h : objGetRootObject fuel kernel = some r) : r = kernel.rootObject := by
  obtain ⟨fuel₀, hgranted⟩ := hpriv
  obtain ⟨g, hg, rfl⟩ := Option.map_eq_some_iff.mp h
  have hsome := kernelCheckToken_mono hg (le_max_left fuel fuel₀)
  rw [kernelCheckToken_mono hgranted (le_max_right fuel fuel₀)] at hsome
  obtain rfl := Option.some.inj hsome
  rfl

/-- **Two activations**: the dot goes to the root object, and from there the path goes on in the
directory. -/
theorem Registry.resolve (h : Registry s clients root devices entry entries) (hf : FreshStore S s)
    (hroot : kernel.rootObject = root) (hobject : objGetRootObject fuel kernel = some root)
    (hfuel : 0 < fuel) (hcs : ∀ c ∈ cs, IsComponent c)
    (hfits : (joinPath (devicesName :: cs)).length ≤ 255) (rest : List UInt8) :
    resolveObjectName fuel (onHeap kernel s.heap.mem) (depth + 2) root
        (some ([46, 47] ++ joinPath (devicesName :: cs) ++ 0 :: rest)) =
      if cs = [] then .ok devices
      else resolveObjectName fuel (onHeap kernel s.heap.mem) depth devices
        (some (pad 256 (joinPath cs))) := by
  subst hroot
  have hroot0 := hf.ne_zero h.keptRoot.1
  have hentry0 := hf.ne_zero h.keptEntry.1
  have hcomps : ∀ c ∈ devicesName :: cs, IsComponent c :=
    List.forall_mem_cons.mpr ⟨isComponent_devicesName, hcs⟩
  have hlist : ((onHeap kernel s.heap.mem).objects kernel.rootObject).headerList = entry :=
    h.rootList
  have hitem : (readList s.heap.mem entry).item = devices := h.item
  have htype : (readObject s.heap.mem devices).header.type = 1 := h.type
  have htail : Fits (devicesName :: cs) := by
    rw [Fits, List.tail_cons]
    cases cs with
    | nil => exact Nat.zero_le _
    | cons c cs =>
      rw [joinPath_cons (List.cons_ne_nil _ _), List.length_append, List.length_cons] at hfits
      omega
  -- the first activation takes the dot and starts again at the root object
  have hdot : resolveObjectName fuel (onHeap kernel s.heap.mem) (depth + 1 + 1) kernel.rootObject
      (some ([46, 47] ++ joinPath (devicesName :: cs) ++ 0 :: rest)) = _ :=
    resolveObjectName_dot (s := onHeap kernel s.heap.mem) (.inl hroot0) hobject
      (joinPath_nul hcomps) rest
  rw [hdot, if_pos hfits]
  change resolveObjectName fuel _ (depth + 1) kernel.rootObject _ = _
  rw [pad_eq (Nat.lt_succ_of_le hfits), resolveObjectName_cons hcomps hroot0, if_pos htail, hlist,
    h.find_devices hf hfuel]
  simp only [bind, Except.bind, if_neg hentry0, hitem, htype, and_true]
  by_cases hnil : cs = []
  · rw [if_pos hnil, if_neg fun hne => hne hnil]
  · rw [if_neg hnil, if_pos hnil]

/-- Whatever `./Devices` resolves to is the directory. -/
theorem Registry.resolve_devices (h : Registry s clients root devices entry entries)
    (hf : FreshStore S s) (hroot : kernel.rootObject = root)
    (hobject : objGetRootObject fuel kernel = some root) {dir : ℕ}
    (hdir : resolveObjectName fuel (onHeap kernel s.heap.mem) depth root
      (some ([46, 47] ++ devicesName ++ [0])) = .ok dir) : dir = devices := by
  subst hroot
  have hroot0 := hf.ne_zero h.keptRoot.1
  have hentry0 := hf.ne_zero h.keptEntry.1
  have hdot : ∀ depth, resolveObjectName fuel (onHeap kernel s.heap.mem) (depth + 1)
      kernel.rootObject (some ([46, 47] ++ devicesName ++ [0])) =
      resolveObjectName fuel (onHeap kernel s.heap.mem) depth kernel.rootObject
        (some (pad 256 devicesName)) := by
    intro depth
    have hall : resolveObjectName fuel (onHeap kernel s.heap.mem) (depth + 1) kernel.rootObject
        (some ([46, 47] ++ devicesName ++ [0])) = _ :=
      resolveObjectName_dot (s := onHeap kernel s.heap.mem) (.inl hroot0) hobject
        isComponent_devicesName.nul []
    rw [if_pos (by decide)] at hall
    exact hall
  cases depth with
  | zero => exact absurd hdir (by simp [resolveObjectName])
  | succ depth =>
    rw [hdot] at hdir
    cases depth with
    | zero => exact absurd hdir (by simp [resolveObjectName])
    | succ depth =>
      rcases Nat.eq_zero_or_pos fuel with rfl | hfuel
      · -- no round for the first entry
        have hlist : ((onHeap kernel s.heap.mem).objects kernel.rootObject).headerList = entry :=
          h.rootList
        have hstuck : findChild (onHeap kernel s.heap.mem) (pad 32 devicesName) 0 entry =
            .error .stuck := by
          rw [findChild, if_neg hentry0]
        have hcons : resolveObjectName 0 (onHeap kernel s.heap.mem) (depth + 1) kernel.rootObject
            (some (joinPath [devicesName] ++ 0 :: List.replicate (256 - devicesName.length - 1) 0)) =
            _ :=
          resolveObjectName_cons (List.forall_mem_singleton.mpr isComponent_devicesName) hroot0 _
        rw [if_pos (by decide), hlist, hstuck] at hcons
        rw [pad_eq (by decide)] at hdir
        exact absurd (hcons.symm.trans hdir) (by simp [bind, Except.bind])
      · have hall : resolveObjectName fuel (onHeap kernel s.heap.mem) (depth + 2) kernel.rootObject
            (some ([46, 47] ++ joinPath [devicesName] ++ [0])) = _ :=
          h.resolve hf rfl hobject hfuel (List.forall_mem_nil _) (by decide) []
        rw [if_pos rfl] at hall
        exact (Except.ok.inj (hall.symm.trans ((hdot _).trans hdir))).symm

/-- The last activation looks the name up in the directory. -/
theorem Registry.resolve_last (h : Registry s clients root devices entry entries)
    (hf : FreshStore S s) (hname : IsComponent name) :
    resolveObjectName fuel (onHeap kernel s.heap.mem) (depth + 1) devices (some (pad 256 name)) =
      (findChild (onHeap kernel s.heap.mem) (pad 32 name) fuel
        (s.heap.mem.load64 (devices + 88))).bind fun t =>
          if t = 0 then .ok 0 else .ok (s.heap.mem.load64 t) := by
  have hcons : resolveObjectName fuel (onHeap kernel s.heap.mem) (depth + 1) devices
      (some (joinPath [name] ++ 0 :: List.replicate (256 - name.length - 1) 0)) = _ :=
    resolveObjectName_cons (List.forall_mem_singleton.mpr hname) (hf.ne_zero h.keptDevices.1) _
  have hfits : Fits [name] := Nat.zero_le _
  have hlen := hname.length
  rw [if_pos hfits] at hcons
  rw [pad_eq (by omega)]
  refine hcons.trans ?_
  simp only [bind, ne_eq, not_true_eq_false, false_and, if_false]
  rfl

/-- **Resolution of the last child** of the directory: by the name that its bytes hold. -/
theorem Registry.resolves_iff (h : Registry s clients root devices entry (entries ++ [node]))
    (hf : FreshStore S s) (hroot : kernel.rootObject = root) (hpriv : Privileged kernel)
    (hitem : s.heap.mem.load64 node = p) (hname : IsComponent name)
    (hothers : ∀ t ∈ entries, cString (s.heap.mem.bytes (s.heap.mem.load64 t) 32) ≠ name) :
    Resolves (onHeap kernel s.heap.mem) root ([46, 47] ++ joinPath [devicesName, name]) p ↔
      cString (s.heap.mem.bytes p 32) = name := by
  obtain ⟨fuel₁, hobject⟩ := hpriv.objGetRootObject
  have hlen := hname.length
  have hpad : (pad 32 name).length = 32 := length_pad (by omega)
  have hcString : cString (pad 32 name) = name := cString_pad (by omega) hname.nul
  have hfits : (joinPath [devicesName, name]).length ≤ 255 := by
    simp only [joinPath, List.length_append, List.length_cons]
    change 7 + (name.length + 1) ≤ 255
    omega
  have hmem : node ∈ entries ++ [node] := List.mem_append_right _ (List.mem_singleton_self node)
  have hnode0 := hf.ne_zero (h.list.live node hmem)
  have hp : p ≠ 0 := by
    rw [← hitem]
    exact hf.ne_zero (h.items node hmem).1
  -- what every resolution with enough rounds comes down to
  have hall : ∀ fuel depth rest, fuel₁ < fuel →
      resolveObjectName fuel (onHeap kernel s.heap.mem) (depth + 3) root
        (some ([46, 47] ++ joinPath [devicesName, name] ++ 0 :: rest)) =
      (findChild (onHeap kernel s.heap.mem) (pad 32 name) fuel
        (s.heap.mem.load64 (devices + 88))).bind fun t =>
          if t = 0 then .ok 0 else .ok (s.heap.mem.load64 t) := by
    intro fuel depth rest hfuel
    have hroot' : objGetRootObject fuel kernel = some root := hroot ▸ hobject fuel hfuel.le
    have htwo : resolveObjectName fuel (onHeap kernel s.heap.mem) (depth + 1 + 2) root
        (some ([46, 47] ++ joinPath [devicesName, name] ++ 0 :: rest)) = _ :=
      h.resolve hf hroot hroot' (Nat.zero_lt_of_lt hfuel)
        (List.forall_mem_singleton.mpr hname) hfits rest
    rw [if_neg (List.cons_ne_nil _ _)] at htwo
    exact htwo.trans (h.resolve_last hf hname)
  constructor
  · rintro ⟨fuel₀, depth₀, hresolve⟩
    have hone := hresolve (max fuel₀ fuel₁ + 1) (depth₀ + 3) (by omega) (by omega) []
    rw [hall _ _ _ (by omega)] at hone
    obtain ⟨t, ht, hret⟩ := bind_eq_ok.mp hone
    by_cases ht0 : t = 0
    · rw [if_pos ht0] at hret
      exact absurd (Except.ok.inj hret).symm hp
    · -- an entry was found: it has the name and is the device
      rw [if_neg ht0] at hret
      have hfound := ((findChild_spec hpad ht).2 ht0).2
      rw [hcString, childName_onHeap] at hfound
      obtain rfl := Except.ok.inj hret
      exact hfound
  · intro hdevice
    refine ⟨max fuel₁ entries.length + 1, 3, fun fuel depth hfuel hdepth rest => ?_⟩
    obtain ⟨depth, rfl⟩ : ∃ k, depth = k + 3 := ⟨depth - 3, by omega⟩
    obtain ⟨b, hinit, hb, -⟩ := chain_append.mp h.list.chain
    obtain rfl : b = node := hb
    have hfind : findChild (onHeap kernel s.heap.mem) (pad 32 name) fuel
        (s.heap.mem.load64 (devices + 88)) = .ok b := by
      refine findChild_of_chain hpad hinit (fun t ht => ?_) hnode0 ?_ ?_ (by omega)
      · have ht' := List.mem_append_left [b] ht
        refine ⟨hf.ne_zero (h.list.live t ht'), hf.ne_zero (h.items t ht').1, ?_⟩
        rw [hcString, childName_onHeap]
        exact hothers t ht
      · exact hf.ne_zero (h.items b hmem).1
      · rw [hcString, childName_onHeap]
        change cString (s.heap.mem.bytes (s.heap.mem.load64 b) 32) = name
        rw [hitem]
        exact hdevice
    rw [hall _ _ _ (by omega), hfind]
    change (if b = 0 then _ else _) = _
    rw [if_neg hnode0, hitem]

/-! ## The name of a new device -/

/-- **The name field** of a device: the name is followed by what the block held, which is a zero
behind the link of the free stack and a byte of this link in front of its end. -/
theorem deviceName_iff {m m₁ : Memory} {link : ℕ} (hlink : m₁.load64 p = link)
    (hzero : ∀ a, p + 8 ≤ a → a < p + 128 → m₁ a = 0) (hlen : name.length ≤ 31) (hnul : 0 ∉ name)
    (hm : ∀ a, p ≤ a → a < p + 32 → m a = m₁.writeBytes p name a) :
    cString (m.bytes p 32) = name ↔ 8 ≤ name.length ∨ link / 256 ^ name.length % 256 = 0 := by
  have hsplit : m.bytes p 32 = name ++ m₁ (p + name.length) ::
      m.bytes (p + name.length + 1) (31 - name.length) := by
    have hadd : 32 = name.length + ((31 - name.length) + 1) := by omega
    have hfirst : m.bytes p name.length = name :=
      (bytes_congr fun a ha ha' => hm a ha (by omega)).trans (bytes_writeBytes m₁ p name)
    have hbyte : m (p + name.length) = m₁ (p + name.length) :=
      (hm _ (by omega) (by omega)).trans (writeBytes_apply_of_not_mem (by omega))
    rw [hadd, bytes_add, hfirst, bytes, hbyte]
  rw [hsplit, cString_append_eq_iff hnul]
  by_cases hlong : 8 ≤ name.length
  · -- behind the link
    exact iff_of_true (hzero _ (by omega) (by omega)) (.inl hlong)
  · have hbyte := load_byte (m := m₁) (a := p) (Nat.not_le.mp hlong)
    change m₁.load64 p / 256 ^ name.length % 256 = _ at hbyte
    rw [hlink] at hbyte
    rw [or_iff_right hlong, hbyte]
    exact UInt8.toNat_inj.symm

/-! ## A new device -/

theorem Kept.mono {x : ℕ × ℕ} (h : Kept s clients x) (hlive : ∀ x ∈ s.live, x ∈ s'.live) :
    Kept s' clients x :=
  ⟨hlive x h.1, h.2⟩

/-- **A new entry** of the directory, for an object of the object manager. -/
theorem Registry.attach (h : Registry s clients root devices entry entries) (hf : FreshStore S s)
    (hclients : ∀ x ∈ clients, x ∈ s.live) (hp : Kept s clients (p, 112))
    (hattach : Io.attach s (linkField devices entries) p = .ok s')
    (hsupply : s'.heap.expanded ≤ S.count) :
    ∃ node, s'.live = (node, 16) :: s.live ∧ FreshStore S s' ∧
      Registry s' clients root devices entry (entries ++ [node]) ∧
      s'.heap.mem.load64 node = p ∧
      (∀ t ∈ entries, s'.heap.mem.load64 t = s.heap.mem.load64 t) ∧
      ∀ x ∈ s.live, x.2 = 112 → SameAt s.heap.mem s'.heap.mem x := by
  have hd := h.keptDevices.1
  obtain ⟨node, hlive, hf', hlist, hitem, hlinks⟩ :=
    attach_spec hf hd h.list (hf.lt hp.1) hattach hsupply
  have hsub : ∀ x ∈ s.live, x ∈ s'.live := by
    rw [hlive]
    exact fun x hx => List.mem_cons_of_mem _ hx
  have hitems : ∀ t ∈ entries, s'.heap.mem.load64 t = s.heap.mem.load64 t :=
    fun t ht => hlinks.item hf hd h.list ht
  -- blocks of other sizes are no entries
  have hnot : ∀ {q n : ℕ}, (q, n) ∈ s.live → n ≠ 16 → q ∉ entries :=
    fun hq hn hin => hn (hf.unique hq (h.list.live _ hin))
  have hroot : SameAt s.heap.mem s'.heap.mem (root, 96) :=
    hlinks.same hf hd h.list h.keptRoot.1 (by decide) h.apart.symm
      (hnot h.keptRoot.1 (by decide))
  have hheader := hlinks.header hf hd h.list
  have hentry : s'.heap.mem.load64 entry = s.heap.mem.load64 entry := by
    by_cases hin : entry ∈ entries
    · exact hitems entry hin
    · have hne : entry ≠ devices := by
        rintro rfl
        exact absurd (hf.unique h.keptEntry.1 hd) (by decide)
      have hsame := hlinks.same hf hd h.list h.keptEntry.1 (by decide) hne hin
      exact hsame.load64 (i := 0) (show 0 + 8 ≤ 16 by decide)
  refine ⟨node, hlive, hf', ?_, hitem, hitems, fun x hx hn => ?_⟩
  · refine { keptRoot := h.keptRoot.mono hsub, keptEntry := h.keptEntry.mono hsub,
             keptDevices := h.keptDevices.mono hsub, apart := h.apart, rootType := ?_,
             rootList := ?_, item := hentry.trans h.item, type := ?_, name := ?_, list := hlist,
             own := ?_, items := ?_ }
    · exact (hroot.load64 (show 72 + 8 ≤ 96 by decide)).trans h.rootType
    · exact (hroot.load64 (show 88 + 8 ≤ 96 by decide)).trans h.rootList
    · exact (hheader.load64 (show 72 + 8 ≤ 88 by decide)).trans h.type
    · have hbytes : s'.heap.mem.bytes devices 32 = s.heap.mem.bytes devices 32 :=
        bytes_congr fun a ha ha' => hheader a ha (by dsimp only; omega)
      rw [hbytes]
      exact h.name
    · intro t ht
      rcases List.mem_append.mp ht with ht | ht
      · exact h.own t ht
      · -- the new entry is not among the blocks handed out before
        rw [List.mem_singleton.mp ht]
        exact fun hin => hf'.new_ne hlive (hclients _ hin) rfl
    · intro t ht
      rcases List.mem_append.mp ht with ht | ht
      · rw [hitems t ht]
        exact (h.items t ht).mono hsub
      · rw [List.mem_singleton.mp ht, hitem]
        exact hp.mono hsub
  · obtain ⟨q, n⟩ := x
    obtain rfl : n = 112 := hn
    have hne : q ≠ devices := by
      rintro rfl
      exact absurd (hf.unique hx hd) (by decide)
    exact hlinks.same hf hd h.list hx (by decide) hne (hnot hx (by decide))

/-- The fields that a new device gets. -/
def deviceFields (m : Memory) (p type functions : ℕ) (bs : List UInt8) : Memory :=
  ((m.store64 (p + 104) functions).writeBytes p bs).store64 (p + 72) type

theorem deviceFields_frame {m : Memory} {type functions a : ℕ} {bs : List UInt8}
    (hbs : bs.length ≤ 64) (ha : ¬ (p ≤ a ∧ a < p + 112)) :
    deviceFields m p type functions bs a = m a := by
  rw [deviceFields, store64_apply_of_not_mem (by omega), writeBytes_apply_of_not_mem (by omega),
    store64_apply_of_not_mem (by omega)]

theorem deviceFields_name {m : Memory} {type functions a : ℕ} {bs : List UInt8}
    (ha' : a < p + 32) : deviceFields m p type functions bs a = m.writeBytes p bs a := by
  rw [deviceFields, store64_apply_of_not_mem (by omega), writeBytes, writeBytes,
    store64_apply_of_not_mem (by omega)]

section Create

variable {t t' : IoState} {store : HeapRun} {type functions : ℕ} {bs : List UInt8}

/-- **The block of a device** with its fields, before it is entered into the directory. -/
theorem Registry.deviceBlock (h : Registry s clients root devices entry entries)
    (hf : FreshStore S s) (hclients : ∀ x ∈ clients, x ∈ s.live) (hbs : bs.length ≤ 64)
    (hcall : allocate s 112 = .ok (p, s')) (hsupply : s'.heap.expanded ≤ S.count)
    (hstore : store = setMem s' (deviceFields s'.heap.mem p type functions bs)) :
    FreshStore S store ∧ Registry store clients root devices entry entries ∧
      Kept store clients (p, 112) ∧ store.live = (p, 112) :: s.live ∧
      (∀ x ∈ s.live, x.2 < 2048 → SameAt s.heap.mem store.heap.mem x) ∧
      Granted S s.heap s'.heap 4 p (freeLink s.heap 4) := by
  subst hstore
  have hframe : ∀ a, ¬ (p ≤ a ∧ a < p + 112) →
      deviceFields s'.heap.mem p type functions bs a = s'.heap.mem a :=
    fun a ha => deviceFields_frame hbs ha
  obtain ⟨hlive, hf', hsame, hgrant⟩ := hf.newObject (by decide) hcall hsupply hframe
  have hmem : ∀ x, Kept s clients x → Kept (setMem s' (deviceFields s'.heap.mem p type functions bs))
      clients x := fun x hx => hx.mono (by
    dsimp only
    rw [hlive]
    exact fun x hx => List.mem_cons_of_mem _ hx)
  refine ⟨hf', h.congr hmem fun x hx hn => hsame x hx.1 hn, ⟨?_, fun hin => ?_⟩, hlive, hsame,
    hgrant⟩
  · dsimp only
    rw [hlive]
    exact List.mem_cons_self ..
  · exact hf'.new_ne hlive (hclients _ hin) rfl

/-- The rest of the creation, once the block is there. -/
theorem ioCreateDevice_eq {len : ℕ} {bytes : List UInt8} (hcall : allocate t.store 112 = .ok (p, s'))
    (hlen : strlen bytes = .ok len)
    (hstore : store = setMem s' (deviceFields s'.heap.mem p type functions (bytes.take len))) :
    ioCreateDevice type fuel depth t functions bytes =
      ((objGetRootObject fuel t.kernel).elim (Except.error Fault.stuck) Except.ok).bind fun root =>
        (resolveObjectName fuel (onHeap t.kernel store.heap.mem) depth root
          (some ([46, 47] ++ devicesName ++ [0]))).bind fun dir =>
            (directoryAddChild fuel store dir p).bind fun store =>
              .ok (p, { t with store := store }) := by
  subst hstore
  rw [ioCreateDevice, hcall]
  simp only [bind, Except.bind, hlen]
  rfl

/-- What a creation leaves: one more entry of the directory, with the device for its item. The
name is written over the bytes of the block as it was handed out. -/
structure Created (S : PageSupply) (t t' : IoState) (devices entry : ℕ) (entries : List ℕ)
    (p : ℕ) (bs : List UInt8) (node : ℕ) : Prop where
  clients : t'.clients = t.clients
  kernel : t'.kernel = t.kernel
  live : t'.store.live = (node, 16) :: (p, 112) :: t.store.live
  fresh : FreshStore S t'.store
  registry : Registry t'.store t'.clients t'.kernel.rootObject devices entry (entries ++ [node])
  item : t'.store.heap.mem.load64 node = p
  items : ∀ x ∈ entries, t'.store.heap.mem.load64 x = t.store.heap.mem.load64 x
  same : ∀ x ∈ t.store.live, x.2 = 112 → SameAt t.store.heap.mem t'.store.heap.mem x
  name : ∃ m₁ : Memory, m₁.load64 p = freeLink t.store.heap 4 ∧
    (∀ a, p + 8 ≤ a → a < p + 128 → m₁ a = 0) ∧
    ∀ a, p ≤ a → a < p + 32 → t'.store.heap.mem a = m₁.writeBytes p bs a

variable {bytes : List UInt8} {len : ℕ}

/-- From the entry in the directory on. -/
theorem Created.of_attach (h : Registry t.store t.clients t.kernel.rootObject devices entry entries)
    (hf : FreshStore S t.store) (hclients : ∀ x ∈ t.clients, x ∈ t.store.live)
    (hbs : bs.length ≤ 64) (hcall : allocate t.store 112 = .ok (p, s'))
    (hstore : store = setMem s' (deviceFields s'.heap.mem p type functions bs))
    (hattach : attach store (linkField devices entries) p = .ok s)
    (hsupply : s.heap.expanded ≤ S.count) :
    ∃ node, Created S t { t with store := s } devices entry entries p bs node := by
  have hle : s'.heap.expanded ≤ S.count := by
    have hstep := attach_expanded hattach
    rw [hstore] at hstep
    exact hstep.trans hsupply
  obtain ⟨hf₂, hreg₂, hkept, hlive₂, hsame₂, hgrant⟩ := h.deviceBlock hf hclients hbs hcall hle hstore
  have hclients₂ : ∀ x ∈ t.clients, x ∈ store.live := by
    rw [hlive₂]
    exact fun x hx => List.mem_cons_of_mem _ (hclients x hx)
  obtain ⟨node, hlive, hf', hreg, hitem, hitems, hsame⟩ :=
    hreg₂.attach hf₂ hclients₂ hkept hattach hsupply
  refine ⟨node, { clients := rfl, kernel := rfl, live := by dsimp only; rw [hlive, hlive₂],
                  fresh := hf', registry := hreg, item := hitem, items := fun x hx => ?_,
                  same := fun x hx hn => ?_, name := ⟨s'.heap.mem, hgrant.link, hgrant.zero, ?_⟩ }⟩
  · have hentry := (hsame₂ (x, 16) (h.list.live x hx) (show 16 < 2048 by decide)).load64 (i := 0)
      (show 0 + 8 ≤ 16 by decide)
    exact (hitems x hx).trans hentry
  · have hin : x ∈ store.live := hlive₂ ▸ List.mem_cons_of_mem _ hx
    exact (hsame₂ x hx (hn ▸ by decide)).trans (hsame x hin hn)
  · intro a ha ha'
    have hdevice := hsame (p, 112) hkept.1 rfl a ha (by dsimp only; omega)
    refine hdevice.trans ?_
    rw [hstore]
    exact deviceFields_name ha'

/-- **A creation that returns.** -/
theorem ioCreateDevice_spec
    (h : Registry t.store t.clients t.kernel.rootObject devices entry entries)
    (hf : FreshStore S t.store) (hclients : ∀ x ∈ t.clients, x ∈ t.store.live)
    (hpriv : Privileged t.kernel) (hbytes : (cString bytes).length ≤ 64)
    (hcreate : ioCreateDevice type fuel depth t functions bytes = .ok (p, t'))
    (hsupply : t'.store.heap.expanded ≤ S.count) :
    ∃ node, Created S t t' devices entry entries p (cString bytes) node := by
  obtain ⟨⟨p', s'⟩, hcall, hrest⟩ := bind_eq_ok.mp hcreate
  obtain ⟨len, hlen, -⟩ := bind_eq_ok.mp hrest
  rw [ioCreateDevice_eq hcall hlen rfl] at hcreate
  obtain ⟨root, hroot, hcreate⟩ := bind_eq_ok.mp hcreate
  obtain ⟨dir, hdir, hcreate⟩ := bind_eq_ok.mp hcreate
  obtain ⟨s, hadd, hret⟩ := bind_eq_ok.mp hcreate
  obtain ⟨rfl, rfl⟩ := Prod.mk.inj (Except.ok.inj hret)
  rw [← strlen_eq_ok hlen] at hbytes ⊢
  have hle := (directoryAddChild_expanded hadd).trans hsupply
  obtain ⟨hf₂, hreg₂, hkept, -⟩ := h.deviceBlock hf hclients hbytes hcall hle rfl
  -- the path leads to the directory, whatever the number of rounds
  cases hobject : objGetRootObject fuel t.kernel with
  | none =>
    rw [hobject] at hroot
    exact absurd hroot (by simp)
  | some r =>
    rw [hobject] at hroot
    obtain rfl : r = root := Except.ok.inj hroot
    obtain rfl := objGetRootObject_eq hpriv hobject
    obtain rfl := hreg₂.resolve_devices hf₂ rfl hobject hdir
    have hattach := (directoryAddChild_eq hf₂ (hf₂.ne_zero hreg₂.keptDevices.1) hreg₂.list).2 s hadd
    exact Created.of_attach h hf hclients hbytes hcall rfl hattach hsupply

/-- **A creation returns** with enough rounds and activations. -/
theorem ioCreateDevice_returns
    (h : Registry t.store t.clients t.kernel.rootObject devices entry entries)
    (hf : FreshStore S t.store) (hclients : ∀ x ∈ t.clients, x ∈ t.store.live)
    (hpriv : Privileged t.kernel) (hnul : 0 ∉ name) (hname : name.length ≤ 64)
    (hsupply : t.store.heap.expanded + pagesNeeded t.store.heap 112 ≤ S.count) :
    ∃ p t', ∃ fuel₀ depth₀, ∀ fuel depth, fuel₀ ≤ fuel → depth₀ ≤ depth →
      ioCreateDevice type fuel depth t functions (name ++ 0 :: rest) = .ok (p, t') := by
  obtain ⟨fuel₁, hobject⟩ := hpriv.objGetRootObject
  obtain ⟨p, s', hcall, -, hcount, -⟩ := hf.allocate_small (show 112 < 2048 by decide)
  have hlen : strlen (name ++ 0 :: rest) = .ok name.length := strlen_append hnul
  have htake : (name ++ 0 :: rest).take name.length = name := List.take_left' rfl
  obtain ⟨hf₂, hreg₂, -⟩ := h.deviceBlock hf hclients hname hcall (hcount ▸ hsupply)
    (Eq.refl (setMem s' (deviceFields s'.heap.mem p type functions name)))
  generalize hstore : setMem s' (deviceFields s'.heap.mem p type functions name) = store at *
  -- the block for the entry
  obtain ⟨s₃, hattach⟩ : ∃ s₃, attach store (linkField devices entries) p = .ok s₃ := by
    obtain ⟨node, s₃, hcall₃, -⟩ := hf₂.allocate_small (show 16 < 2048 by decide)
    exact ⟨_, by rw [attach, hcall₃]; rfl⟩
  refine ⟨p, { t with store := s₃ }, max fuel₁ entries.length + 1, 2,
    fun fuel depth hfuel hdepth => ?_⟩
  obtain ⟨depth, rfl⟩ : ∃ k, depth = k + 2 := ⟨depth - 2, by omega⟩
  have hroot := hobject fuel (by omega)
  -- `./Devices` resolves in the store with the block of the device
  have hresolve : resolveObjectName fuel (onHeap t.kernel store.heap.mem) (depth + 2)
      t.kernel.rootObject (some ([46, 47] ++ joinPath [devicesName] ++ [0])) = _ :=
    hreg₂.resolve hf₂ rfl hroot (by omega) (List.forall_mem_nil _) (by decide) []
  rw [if_pos rfl] at hresolve
  have hadd := (directoryAddChild_eq (o := p) hf₂ (hf₂.ne_zero hreg₂.keptDevices.1)
    hreg₂.list).1 (show entries.length ≤ fuel by omega)
  rw [← htake] at hstore
  rw [ioCreateDevice_eq hcall hlen hstore.symm, hroot]
  change (resolveObjectName fuel (onHeap t.kernel store.heap.mem) (depth + 2) t.kernel.rootObject
    (some ([46, 47] ++ joinPath [devicesName] ++ [0]))).bind _ = _
  rw [hresolve]
  change (directoryAddChild fuel store devices p).bind _ = _
  rw [hadd, hattach]
  rfl

end Create

/-! ## The first objects -/

section Initialize

variable {t t' : IoState} {behind : List.Vector UInt8 24}

/-- A block with zeros has no header list, wherever else it was written. -/
theorem headerList_zero {m m₁ : Memory} (hzero : ∀ a, p + 8 ≤ a → a < p + 128 → m₁ a = 0)
    (hm : ∀ a, p + 88 ≤ a → a < p + 96 → m a = m₁ a) : m.load64 (p + 88) = 0 :=
  load_eq_zero fun a ha ha' =>
    (hm a (by omega) (by omega)).trans (hzero a (by omega) (by omega))

/-- **The object manager at its start**: the root object with an empty directory. -/
theorem initializeObjectManager_spec (hf : FreshStore S t.store)
    (hclients : ∀ x ∈ t.clients, x ∈ t.store.live)
    (hinit : initializeObjectManager fuel t behind = .ok t')
    (hsupply : t'.store.heap.expanded ≤ S.count) :
    t'.clients = t.clients ∧ t'.kernel = { t.kernel with rootObject := t'.kernel.rootObject } ∧
      (∃ new, t'.store.live = new ++ t.store.live) ∧ FreshStore S t'.store ∧
      ∃ devices entry, Registry t'.store t'.clients t'.kernel.rootObject devices entry [] := by
  obtain ⟨⟨root, s₁⟩, hroot, hrest⟩ := bind_eq_ok.mp hinit
  obtain ⟨s₃, hcreate, hret⟩ := bind_eq_ok.mp hrest
  obtain rfl := Except.ok.inj hret
  obtain ⟨⟨dir, s₂⟩, hdir, hadd⟩ := bind_eq_ok.mp hcreate
  dsimp only at hdir hadd hsupply
  have hcount₂ := (directoryAddChild_expanded hadd).trans hsupply
  have hcount₁ := (allocate_expanded (show 96 < 2048 by decide) hdir).trans hcount₂
  -- the root object
  have hframe₁ : ∀ a, ¬ (root + 72 ≤ a ∧ a < root + 80) → ¬ (root ≤ a ∧ a < root + 2) →
      ((s₁.heap.mem.store64 (root + 72) 1).writeBytes root [46, 0]) a = s₁.heap.mem a := by
    intro a ha ha'
    rw [writeBytes_apply_of_not_mem ha', store64_apply_of_not_mem ha]
  have htype₁ : ((s₁.heap.mem.store64 (root + 72) 1).writeBytes root [46, 0]).load64 (root + 72) =
      1 := by
    rw [load64_writeBytes_of_apart (.inl (by simp)), load64_store64_same_of_lt (by decide)]
  generalize (s₁.heap.mem.store64 (root + 72) 1).writeBytes root [46, 0] = m₁ at *
  obtain ⟨hlive₁, hf₁, -, hgrant₁⟩ := hf.newObject (by decide) hroot hcount₁
    (fun a ha => hframe₁ a (by omega) (by omega))
  have hlist₁ : m₁.load64 (root + 88) = 0 :=
    headerList_zero hgrant₁.zero fun a ha ha' => hframe₁ a (by omega) (by omega)
  -- the directory
  have hliteral : ((s₂.heap.mem.store64 (dir + 72) 1).writeBytes dir
      (devicesLiteral behind).toList).bytes dir 32 = (devicesLiteral behind).toList := by
    have hwritten := bytes_writeBytes (s₂.heap.mem.store64 (dir + 72) 1) dir
      (devicesLiteral behind).toList
    rwa [List.Vector.toList_length] at hwritten
  have hframe₂ : ∀ a, ¬ (dir + 72 ≤ a ∧ a < dir + 80) → ¬ (dir ≤ a ∧ a < dir + 32) →
      ((s₂.heap.mem.store64 (dir + 72) 1).writeBytes dir (devicesLiteral behind).toList) a =
        s₂.heap.mem a := by
    intro a ha ha'
    rw [writeBytes_apply_of_not_mem (by rwa [List.Vector.toList_length]),
      store64_apply_of_not_mem ha]
  have htype₂ : ((s₂.heap.mem.store64 (dir + 72) 1).writeBytes dir
      (devicesLiteral behind).toList).load64 (dir + 72) = 1 := by
    rw [load64_writeBytes_of_apart (.inl (by rw [List.Vector.toList_length]; omega)),
      load64_store64_same_of_lt (by decide)]
  generalize (s₂.heap.mem.store64 (dir + 72) 1).writeBytes dir (devicesLiteral behind).toList = m₂ at *
  obtain ⟨hlive₂, hf₂, hsame₂, hgrant₂⟩ := hf₁.newObject (by decide) hdir hcount₂
    (fun a ha => hframe₂ a (by omega) (by omega))
  have hlist₂ : m₂.load64 (dir + 88) = 0 :=
    headerList_zero hgrant₂.zero fun a ha ha' => hframe₂ a (by omega) (by omega)
  have hrootlive : (root, 96) ∈ s₁.live := hlive₁ ▸ List.mem_cons_self ..
  have hrootlive₂ : (root, 96) ∈ s₂.live := hlive₂ ▸ List.mem_cons_of_mem _ hrootlive
  have hdirlive : (dir, 96) ∈ s₂.live := hlive₂ ▸ List.mem_cons_self ..
  have hrootsame : SameAt m₁ m₂ (root, 96) := hsame₂ _ hrootlive (show 96 < 2048 by decide)
  have hne : dir ≠ root := (hf₂.new_ne hlive₂ hrootlive).symm
  -- its entry in the root object
  have hempty : HeaderList (setMem s₂ m₂) root [] :=
    { chain := (hrootsame.load64 (show 88 + 8 ≤ 96 by decide)).trans hlist₁
      live := List.forall_mem_nil _
      nodup := List.nodup_nil }
  have hattach := (directoryAddChild_eq hf₂ (hf₂.ne_zero hrootlive₂) hempty).2 s₃ hadd
  obtain ⟨node, hlive₃, hf₃, hlist₃, hitem, hlinks⟩ :=
    attach_spec hf₂ hrootlive₂ hempty (hf₂.lt hdirlive) hattach hsupply
  have hheader := hlinks.header hf₂ hrootlive₂ hempty
  have hdirsame : SameAt m₂ s₃.heap.mem (dir, 96) :=
    hlinks.same hf₂ hrootlive₂ hempty hdirlive (by decide) hne List.not_mem_nil
  have hlive : s₃.live = [(node, 16), (dir, 96), (root, 96)] ++ t.store.live := by
    rw [hlive₃]
    change (node, 16) :: s₂.live = _
    rw [hlive₂]
    change (node, 16) :: (dir, 96) :: s₁.live = _
    rw [hlive₁]
    rfl
  have hold : ∀ x ∈ t.clients, x ∈ s₁.live := fun x hx =>
    hlive₁ ▸ List.mem_cons_of_mem _ (hclients x hx)
  have hold₂ : ∀ x ∈ t.clients, x ∈ s₂.live := fun x hx =>
    hlive₂ ▸ List.mem_cons_of_mem _ (hold x hx)
  refine ⟨rfl, rfl, ⟨_, hlive⟩, hf₃, dir, node, ?_⟩
  have hkept : ∀ {x}, x ∈ s₃.live → x ∉ t.clients → Kept s₃ t.clients x := fun hx hnot => ⟨hx, hnot⟩
  refine { keptRoot := hkept (by simp [hlive]) ?_, keptEntry := hkept (by simp [hlive]) ?_,
           keptDevices := hkept (by simp [hlive]) ?_, apart := hne, rootType := ?_,
           rootList := hlist₃.chain.1, item := hitem, type := ?_, name := ?_,
           list := { chain := ?_, live := List.forall_mem_nil _, nodup := List.nodup_nil },
           own := List.forall_mem_nil _, items := List.forall_mem_nil _ }
  · exact fun hin => hf₁.new_ne hlive₁ (hclients _ hin) rfl
  · exact fun hin => hf₃.new_ne hlive₃ (hold₂ _ hin) rfl
  · exact fun hin => hf₂.new_ne hlive₂ (hold _ hin) rfl
  · have hstep := hheader.load64 (show 72 + 8 ≤ 88 by decide)
    exact hstep.trans ((hrootsame.load64 (show 72 + 8 ≤ 96 by decide)).trans htype₁)
  · exact (hdirsame.load64 (show 72 + 8 ≤ 96 by decide)).trans htype₂
  · have hbytes : s₃.heap.mem.bytes dir 32 = m₂.bytes dir 32 :=
      bytes_congr fun a ha ha' => hdirsame a ha (by dsimp only; omega)
    rw [hbytes, hliteral]
    exact cString_append isComponent_devicesName.nul
  · exact (hdirsame.load64 (show 88 + 8 ≤ 96 by decide)).trans hlist₂

end Initialize

/-! ## Runs -/

inductive Device where
  | block
  | char

def Device.create : Device → ℕ → ℕ → IoState → ℕ → List UInt8 → Except Fault (ℕ × IoState)
  | .block => ioCreateBlockDevice
  | .char => ioCreateCharDevice

/-- Both functions do the same for their types. -/
theorem Device.create_eq (d : Device) : ∃ type, d.create = ioCreateDevice type := by
  cases d with
  | block => exact ⟨3, rfl⟩
  | char => exact ⟨2, rfl⟩

/-- What happens to the heap: requests of clients and writes into their blocks, the start of the
object manager, and new devices. -/
inductive IoEvent where
  | malloc (size : ℕ)
  | write (a : ℕ) (b : UInt8)
  | boot (behind : List.Vector UInt8 24)
  | create (d : Device) (functions : ℕ) (name : List UInt8)

def IoEvent.step (fuel depth : ℕ) (t : IoState) : IoEvent → IoState
  | .malloc size =>
    match allocate t.store size with
    | .ok (p, s) => { t with store := s, clients := (p, size) :: t.clients }
    | .error _ => t
  | .write a b => { t with store := setMem t.store (Function.update t.store.heap.mem a b) }
  | .boot behind =>
    match initializeObjectManager fuel t behind with
    | .ok t' => t'
    | .error _ => t
  | .create d functions name =>
    match d.create fuel depth t functions name with
    | .ok (_, t') => t'
    | .error _ => t

/-- The heap before the first request. -/
def IoState.start (S : PageSupply) (m : Memory) (kernel : State) : IoState where
  store := HeapRun.start S m
  clients := []
  kernel := kernel

/-- The events considered, while pages last: requests of any size, writes into the blocks of the
clients, one start of the object manager, and after it devices with names that fit the name
field. -/
def Allowed (S : PageSupply) (fuel depth : ℕ) (t : IoState) : IoEvent → Prop
  | .malloc size => size < 2 ^ 64 ∧
      t.store.heap.expanded + pagesNeeded t.store.heap size ≤ S.count
  | .write a _ => Writable S { t.store with live := t.clients } a
  | .boot behind => t.kernel.rootObject = 0 ∧
      (IoEvent.step fuel depth t (.boot behind)).store.heap.expanded ≤ S.count
  | .create d functions name => t.kernel.rootObject ≠ 0 ∧ (cString name).length ≤ 64 ∧
      (IoEvent.step fuel depth t (.create d functions name)).store.heap.expanded ≤ S.count

instance (S : PageSupply) (fuel depth : ℕ) (t : IoState) :
    (e : IoEvent) → Decidable (Allowed S fuel depth t e)
  | .malloc _ => inferInstanceAs (Decidable (_ ∧ _))
  | .write a _ => inferInstanceAs (Decidable (Writable S { t.store with live := t.clients } a))
  | .boot _ => inferInstanceAs (Decidable (_ ∧ _))
  | .create _ _ _ => inferInstanceAs (Decidable (_ ∧ _ ∧ _))

/-- The invariant: blocks of clients and blocks of the object manager, which has `./Devices` once
it has been started. -/
structure IoInv (S : PageSupply) (t : IoState) : Prop where
  fresh : FreshStore S t.store
  clients : t.clients.Sublist t.store.live
  privileged : Privileged t.kernel
  registry : t.kernel.rootObject ≠ 0 → ∃ devices entry entries,
    Registry t.store t.clients t.kernel.rootObject devices entry entries

section Runs

variable {t : IoState} {d : Device} {functions size a : ℕ} {b : UInt8}

theorem IoInv.start (S : PageSupply) {m : Memory} (hzero : S.Zeroed m) (hpriv : Privileged kernel)
    (hboot : kernel.rootObject = 0) : IoInv S (IoState.start S m kernel) where
  fresh := ⟨_, _, Fresh.start S hzero⟩
  clients := List.Sublist.refl _
  privileged := hpriv
  registry hroot := absurd hboot hroot

/-- Clients are given new blocks. -/
theorem IoInv.malloc (h : IoInv S t) (hsize : size < 2 ^ 64)
    (hsupply : t.store.heap.expanded + pagesNeeded t.store.heap size ≤ S.count) :
    IoInv S (IoEvent.step fuel depth t (.malloc size)) := by
  obtain ⟨p, s, hcall, hlive, hf, hsame⟩ := h.fresh.allocate hsize hsupply
  simp only [IoEvent.step, hcall]
  refine { fresh := hf, clients := ?_, privileged := h.privileged, registry := fun hroot => ?_ }
  · dsimp only
    rw [hlive]
    exact h.clients.cons_cons _
  · obtain ⟨devices, entry, entries, hreg⟩ := h.registry hroot
    refine ⟨devices, entry, entries, hreg.congr (fun x hx => ⟨?_, fun hin => ?_⟩)
      fun x hx hn => hsame x hx.1 hn⟩
    · rw [hlive]
      exact List.mem_cons_of_mem _ hx.1
    · rcases List.mem_cons.mp hin with rfl | hin
      · exact hf.new_ne hlive hx.1 rfl
      · exact hx.2 hin

/-- A client does not write into the blocks of the object manager. -/
theorem IoInv.kept_apart (h : IoInv S t) (ha : Writable S { t.store with live := t.clients } a)
    {x : ℕ × ℕ} (hx : Kept t.store t.clients x) (hn : x.2 < 2048) :
    ¬ (x.1 ≤ a ∧ a < x.1 + x.2) := by
  obtain ⟨role, headers, hf⟩ := h.fresh
  obtain ⟨hk, hblock⟩ := size_lt_block hn
  obtain ⟨i, hi, hr, j, hj, haddr⟩ := hf.block hx.1 hk
  -- seen from the clients, the block is not live
  have hl : Layout S role headers t.store.heap t.clients :=
    hf.toLayout.frame (fun _ _ _ _ _ _ => rfl) (fun _ _ _ _ _ _ _ _ _ _ _ => rfl) h.clients
  have hdead : ∀ y ∈ t.clients, y.1 ≠ blockAddr (S.page i) (sizeClass x.2) j := by
    intro y hy heq
    have hsame := List.inj_on_of_nodup_map hf.distinct (h.clients.subset hy) hx.1
      (heq.trans haddr.symm)
    exact hx.2 (hsame ▸ hy)
  have hpage : ∀ y ∈ t.clients, y.1 ≠ S.page i := fun y hy heq =>
    hf.blocks y (h.clients.subset hy) (heq ▸ S.aligned i (hi.trans_le hf.count))
  have hapart := (hl.writable_apart (s := { t.store with live := t.clients }) ha).2.2 i hi _ hk hr j
    hj hdead fun _ => hpage
  omega

/-- Clients write into their blocks. -/
theorem IoInv.write (h : IoInv S t) (ha : Writable S { t.store with live := t.clients } a) :
    IoInv S (IoEvent.step fuel depth t (.write a b)) := by
  have hlive : Writable S t.store a := by
    obtain ⟨x, hx, hrest⟩ := ha
    exact ⟨x, h.clients.subset hx, hrest⟩
  obtain ⟨role, headers, hf⟩ := h.fresh
  refine { fresh := ⟨role, headers, hf.write hlive⟩, clients := h.clients,
           privileged := h.privileged, registry := fun hroot => ?_ }
  obtain ⟨devices, entry, entries, hreg⟩ := h.registry hroot
  refine ⟨devices, entry, entries, hreg.congr (fun x hx => hx) fun x hx hn a' ha' ha'' => ?_⟩
  have hapart := h.kept_apart ha hx hn
  exact Function.update_of_ne (by omega) _ _

/-- **Step lemma.** -/
theorem IoInv.step (h : IoInv S t) {e : IoEvent} (hallowed : Allowed S fuel depth t e) :
    IoInv S (IoEvent.step fuel depth t e) := by
  cases e with
  | malloc size => exact h.malloc hallowed.1 hallowed.2
  | write a b => exact h.write hallowed
  | boot behind =>
    obtain ⟨-, hsupply⟩ := hallowed
    rw [IoEvent.step] at hsupply ⊢
    cases hinit : initializeObjectManager fuel t behind with
    | error _ => exact h
    | ok t' =>
      rw [hinit] at hsupply
      -- what the object manager allocates is not for the clients
      obtain ⟨hclients, hkernel, ⟨new, hlive⟩, hf, devices, entry, hreg⟩ :=
        initializeObjectManager_spec h.fresh (fun x hx => h.clients.subset hx) hinit hsupply
      refine { fresh := hf, clients := ?_, privileged := ?_,
               registry := fun _ => ⟨devices, entry, [], hreg⟩ }
      · dsimp only
        rw [hclients, hlive]
        exact h.clients.trans (List.sublist_append_right ..)
      · dsimp only
        rw [hkernel]
        exact h.privileged
  | create d functions name =>
    obtain ⟨hroot, hname, hsupply⟩ := hallowed
    obtain ⟨type, htype⟩ := d.create_eq
    rw [IoEvent.step, htype] at hsupply ⊢
    cases hcreate : ioCreateDevice type fuel depth t functions name with
    | error _ => exact h
    | ok r =>
      obtain ⟨p, t'⟩ := r
      rw [hcreate] at hsupply
      obtain ⟨devices, entry, entries, hreg⟩ := h.registry hroot
      -- two blocks: the device and its entry
      obtain ⟨node, hc⟩ := ioCreateDevice_spec hreg h.fresh (fun x hx => h.clients.subset hx)
        h.privileged hname hcreate hsupply
      refine { fresh := hc.fresh, clients := ?_, privileged := ?_,
               registry := fun _ => ⟨devices, entry, _, hc.registry⟩ }
      · dsimp only
        rw [hc.clients, hc.live]
        exact (h.clients.trans (List.sublist_cons_self ..)).trans (List.sublist_cons_self ..)
      · dsimp only
        rw [hc.kernel]
        exact h.privileged

/-- No child of `./Devices` has the name. -/
def Unused (t : IoState) (name : List UInt8) : Prop :=
  ∀ dir o, Edge t.view t.kernel.rootObject dir → objectName t.view dir = devicesName →
    Edge t.view dir o → childName t.view o ≠ name

theorem Registry.others
    (h : Registry t.store t.clients t.kernel.rootObject devices entry entries)
    (hf : FreshStore S t.store) (hunused : Unused t name) {x : ℕ} (hx : x ∈ entries) :
    cString (t.store.heap.mem.bytes (t.store.heap.mem.load64 x) 32) ≠ name := by
  have hdir : Edge t.view t.kernel.rootObject devices := by
    refine ⟨h.rootType, entry, ⟨hf.ne_zero h.keptEntry.1, [], h.rootList, by simp⟩, h.item⟩
  have hname : objectName t.view devices = devicesName := by
    rw [← childName_eq_iff (by decide), IoState.view, childName_onHeap]
    exact h.name
  obtain ⟨pre, post, rfl⟩ := List.append_of_mem hx
  obtain ⟨y, hpre, hy, -⟩ := chain_append.mp h.list.chain
  obtain rfl : y = x := hy
  have hitem : Edge t.view devices (t.store.heap.mem.load64 y) := by
    refine ⟨h.type, y, ⟨hf.ne_zero (h.list.live y hx), pre, hpre, fun z hz => ?_⟩, rfl⟩
    exact hf.ne_zero (h.list.live z (List.mem_append_left _ hz))
  have hne := hunused devices _ hdir hname hitem
  rwa [IoState.view, childName_onHeap] at hne

/-- **A created device** resolves exactly if its name has 8 bytes or more or the link in its block
has a zero there. -/
theorem IoInv.resolves_created (h : IoInv S t) (hroot : t.kernel.rootObject ≠ 0) {d : Device}
    {t' : IoState} (hname : IsComponent name) (hunused : Unused t name)
    (hcreate : d.create fuel depth t functions (name ++ 0 :: rest) = .ok (p, t'))
    (hafter : t'.store.heap.expanded ≤ S.count) :
    Resolves t'.view t'.kernel.rootObject ([46, 47] ++ joinPath [devicesName, name]) p ↔
      8 ≤ name.length ∨ freeLink t.store.heap 4 / 256 ^ name.length % 256 = 0 := by
  obtain ⟨devices, entry, entries, hreg⟩ := h.registry hroot
  obtain ⟨type, htype⟩ := d.create_eq
  have hlen := hname.length
  have hcString : cString (name ++ 0 :: rest) = name := cString_append hname.nul
  rw [htype] at hcreate
  obtain ⟨node, hc⟩ := ioCreateDevice_spec hreg h.fresh (fun x hx => h.clients.subset hx)
    h.privileged (by rw [hcString]; omega) hcreate hafter
  rw [hcString] at hc
  have hothers : ∀ x ∈ entries,
      cString (t'.store.heap.mem.bytes (t'.store.heap.mem.load64 x) 32) ≠ name := by
    intro x hx
    have hbytes : t'.store.heap.mem.bytes (t.store.heap.mem.load64 x) 32 =
        t.store.heap.mem.bytes (t.store.heap.mem.load64 x) 32 :=
      bytes_congr fun a ha ha' =>
        hc.same _ (hreg.items x hx).1 rfl a ha (by dsimp only; omega)
    rw [hc.items x hx, hbytes]
    exact hreg.others h.fresh hunused hx
  obtain ⟨m₁, hlink, hzero, hbytes⟩ := hc.name
  have hpriv : Privileged t'.kernel := by
    rw [hc.kernel]
    exact h.privileged
  exact (hc.registry.resolves_iff hc.fresh rfl hpriv hc.item hname hothers).trans
    (deviceName_iff hlink hzero hlen hname.nul hbytes)

/-- **A device in a state of a run** is created, and resolves or not. -/
theorem IoInv.device_resolves (h : IoInv S t) (hroot : t.kernel.rootObject ≠ 0) (d : Device)
    (functions : ℕ) (hname : IsComponent name) (rest : List UInt8) (hunused : Unused t name)
    (hsupply : t.store.heap.expanded + pagesNeeded t.store.heap 112 ≤ S.count) :
    ∃ p t', (∃ fuel₀ depth₀, ∀ fuel depth, fuel₀ ≤ fuel → depth₀ ≤ depth →
        d.create fuel depth t functions (name ++ 0 :: rest) = .ok (p, t')) ∧
      (t'.store.heap.expanded ≤ S.count →
        (Resolves t'.view t'.kernel.rootObject ([46, 47] ++ joinPath [devicesName, name]) p ↔
          8 ≤ name.length ∨ freeLink t.store.heap 4 / 256 ^ name.length % 256 = 0)) := by
  obtain ⟨devices, entry, entries, hreg⟩ := h.registry hroot
  obtain ⟨type, htype⟩ := d.create_eq
  have hlen := hname.length
  obtain ⟨p, t', fuel₀, depth₀, hcreate⟩ := ioCreateDevice_returns hreg h.fresh
    (fun x hx => h.clients.subset hx) h.privileged hname.nul (by omega) hsupply
  rw [← htype] at hcreate
  exact ⟨p, t', ⟨fuel₀, depth₀, hcreate⟩, fun hafter =>
    h.resolves_created hroot hname hunused (hcreate fuel₀ depth₀ le_rfl le_rfl) hafter⟩

/-- **Devices along runs.** -/
theorem device_resolves_iff (S : PageSupply) {m : Memory} (hzero : S.Zeroed m)
    (hpriv : Privileged kernel) (hboot : kernel.rootObject = 0) {events : List IoEvent}
    (hrun : Along (IoEvent.step fuel depth) (Allowed S fuel depth) (IoState.start S m kernel) events)
    (hend : run (IoEvent.step fuel depth) (IoState.start S m kernel) events = t)
    (hroot : t.kernel.rootObject ≠ 0) (d : Device) (functions : ℕ) (hname : IsComponent name)
    (rest : List UInt8) (hunused : Unused t name)
    (hsupply : t.store.heap.expanded + pagesNeeded t.store.heap 112 ≤ S.count) :
    ∃ p t', (∃ fuel₀ depth₀, ∀ fuel depth, fuel₀ ≤ fuel → depth₀ ≤ depth →
        d.create fuel depth t functions (name ++ 0 :: rest) = .ok (p, t')) ∧
      (t'.store.heap.expanded ≤ S.count →
        (Resolves t'.view t'.kernel.rootObject ([46, 47] ++ joinPath [devicesName, name]) p ↔
          8 ≤ name.length ∨ freeLink t.store.heap 4 / 256 ^ name.length % 256 = 0)) := by
  subst hend
  have hinv := hrun.invariant (IoInv.start S hzero hpriv hboot) fun t e h he => h.step he
  exact hinv.device_resolves hroot d functions hname rest hunused hsupply

/-- Four pages of the higher half. -/
def highPages : PageSupply where
  page i := 0xFFFF800000100000 + 0x1000 * i
  count := 4
  aligned i _ := by rw [Nat.add_mul_mod_self_left]
  nonnull i _ := (Nat.lt_add_right _ (by decide)).ne'
  below i hi := calc
    0xFFFF800000100000 + 0x1000 * i + 0x1000 ≤ 0xFFFF800000100000 + 0x1000 * 4 + 0x1000 := by gcongr
    _ ≤ 2 ^ 64 := by decide
  distinct _ _ _ _ h := Nat.eq_of_mul_eq_mul_left (by decide) (Nat.add_left_cancel h)

/-- The heap before the first request, with zeros in every frame and no object manager. -/
def bootIo : IoState :=
  IoState.start highPages (fun _ => 0) { bootKernel with rootObject := 0 }

/-- The heap after the start of the object manager. -/
def startedIo : IoState :=
  run (IoEvent.step 4 4) bootIo [.boot (List.Vector.replicate 24 0)]

theorem startedIo_along :
    Along (IoEvent.step 4 4) (Allowed highPages 4 4) bootIo [.boot (List.Vector.replicate 24 0)] := by
  decide +kernel

/-- A directory with a list of one entry. -/
theorem Edge.single {s : State} {d o t : ℕ} (hlist : (s.objects d).headerList = t)
    (hnext : (s.lists t).next = 0) (h : Edge s d o) : o = (s.lists t).item := by
  obtain ⟨-, x, ⟨hx, nodes, hchain, hnodes⟩, rfl⟩ := h
  rw [hlist] at hchain
  cases nodes with
  | nil =>
    obtain rfl : t = x := hchain
    rfl
  | cons y nodes =>
    obtain ⟨rfl, hrest⟩ := hchain
    rw [State.nextEntry, hnext] at hrest
    cases nodes with
    | nil => exact absurd hrest.symm hx
    | cons z nodes =>
      obtain ⟨rfl, -⟩ := hrest
      exact absurd rfl (hnodes 0 (by simp))

/-- A directory without entries. -/
theorem not_edge_of_empty {s : State} {d o : ℕ} (hlist : (s.objects d).headerList = 0) :
    ¬ Edge s d o := by
  rintro ⟨-, x, ⟨hx, nodes, hchain, hnodes⟩, -⟩
  rw [hlist] at hchain
  cases nodes with
  | nil => exact hx hchain.symm
  | cons y nodes =>
    obtain ⟨rfl, -⟩ := hchain
    exact hnodes 0 (List.mem_cons_self ..) rfl

/-- The directory of the devices is empty at first. -/
theorem startedIo_unused (name : List UInt8) : Unused startedIo name := by
  intro dir o hdir _ hedge
  have hone := Edge.single (s := startedIo.view)
    (t := (startedIo.view.objects startedIo.kernel.rootObject).headerList) rfl (by decide +kernel) hdir
  refine absurd hedge (not_edge_of_empty ?_)
  rw [hone]
  decide +kernel

/-- The name `BootVideo`. -/
def bootVideoName : List UInt8 := [66, 111, 111, 116, 86, 105, 100, 101, 111]

/-- A name of nine bytes as the first device. -/
theorem device_resolves_bootVideo :
    ∃ p t', (∃ fuel₀ depth₀, ∀ fuel depth, fuel₀ ≤ fuel → depth₀ ≤ depth →
        Device.char.create fuel depth startedIo 0x2000 (bootVideoName ++ [0]) = .ok (p, t')) ∧
      (t'.store.heap.expanded ≤ 4 →
        (Resolves t'.view t'.kernel.rootObject ([46, 47] ++ joinPath [devicesName, bootVideoName]) p ↔
          8 ≤ bootVideoName.length ∨
            freeLink startedIo.store.heap 4 / 256 ^ bootVideoName.length % 256 = 0)) :=
  device_resolves_iff highPages (fun _ _ _ _ _ => rfl) ⟨0, rfl⟩ rfl startedIo_along
    (Eq.refl startedIo) (by decide +kernel) .char 0x2000 (by decide) [] (startedIo_unused _) (by decide +kernel)

/-- The name `Ramdisk`. -/
def ramdiskName : List UInt8 := [82, 97, 109, 100, 105, 115, 107]

/-- The first device gets a block with a link into the higher half, and with a name of seven bytes
it is not found. -/
theorem ramdisk_not_found :
    Along (IoEvent.step 4 4) (Allowed highPages 4 4) bootIo [.boot (List.Vector.replicate 24 0)] ∧
    IsComponent ramdiskName ∧ Unused startedIo ramdiskName ∧
    ∃ p t', Device.block.create 4 4 startedIo 0x2000 (ramdiskName ++ [0]) = .ok (p, t') ∧
      ¬ Resolves t'.view t'.kernel.rootObject ([46, 47] ++ joinPath [devicesName, ramdiskName]) p := by
  have hstart : IoInv highPages bootIo := IoInv.start highPages (fun _ _ _ _ _ => rfl) ⟨0, rfl⟩ rfl
  have hinv : IoInv highPages startedIo :=
    startedIo_along.invariant hstart fun t e h he => h.step he
  have hcomp : IsComponent ramdiskName := by decide
  have hcreated : (match Device.block.create 4 4 startedIo 0x2000 (ramdiskName ++ [0]) with
      | .ok r => decide (r.2.store.heap.expanded ≤ 4)
      | .error _ => false) = true := by decide +kernel
  refine ⟨startedIo_along, hcomp, startedIo_unused _, ?_⟩
  cases hcall : Device.block.create 4 4 startedIo 0x2000 (ramdiskName ++ [0]) with
  | error f =>
    rw [hcall] at hcreated
    exact absurd hcreated Bool.false_ne_true
  | ok r =>
    rw [hcall] at hcreated
    refine ⟨r.1, r.2, rfl, fun hfound => ?_⟩
    have hlink := (hinv.resolves_created (by decide) hcomp (startedIo_unused _) hcall
      (of_decide_eq_true hcreated)).mp hfound
    exact absurd hlink (by decide +kernel)

end Runs

end Cutesugar.Kernel.Io
