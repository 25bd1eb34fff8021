import Cutesugar.Kernel.Misc.PciRegistry
import Mathlib.Data.Set.Card

/-!
# The registered functions and the bridges

The enumeration is meant to register every function on the buses that are reachable through PCI-to-PCI
bridges. A bridge has header type 1, whatever the bit for more than one function, and the number of the
bus behind it is at `0x19`. `HalAddPciDevice` compares the header type with that bit, takes it from
function 0, and reads the number of the bus at `0x1D`, where a bridge has the limit of its I/O addresses.

- `NumberedTree`: the configuration spaces that firmware leaves behind;
- `EnumeratesExactly`: what the enumeration is meant to do;
- `enumerates_iff`: the configuration spaces on which it does.
-/

namespace Cutesugar.Kernel.Pci

open Lib Libc Relation

variable {space : UInt32 → UInt32} {t : PciState} {p q : Position} {ps : List Position} {bus c : UInt8}
  {devices dir fuel k : ℕ}

/-! ## Bridges -/

/-- The bus numbers of a bridge. -/
def Position.primaryBus (p : Position) (space : UInt32 → UInt32) : UInt8 := (p.word space 0x18 &&& 0xFF).toUInt8

def Position.secondaryBus (p : Position) (space : UInt32 → UInt32) : UInt8 :=
  (p.word space 0x18 >>> 8 &&& 0xFF).toUInt8

def Position.subordinateBus (p : Position) (space : UInt32 → UInt32) : UInt8 :=
  (p.word space 0x1A &&& 0xFF).toUInt8

/-- A PCI-to-PCI bridge. -/
structure Bridge (space : UInt32 → UInt32) (p : Position) : Prop where
  present : Present space p
  header : p.headerType space &&& 0x7F = 1

/-- A bridge leads from a bus to another one. -/
def Behind (space : UInt32 → UInt32) (bus c : UInt8) : Prop :=
  ∃ p, Bridge space p ∧ p.bus = bus ∧ p.secondaryBus space = c

/-- The buses that are reachable through bridges. -/
def Reachable (space : UInt32 → UInt32) (bus : UInt8) : Prop := ReflTransGen (Behind space) 0 bus

/-- The bridges form a tree rooted at bus 0, and the buses behind a bridge have the numbers from its
secondary bus to its subordinate bus. -/
structure NumberedTree (space : UInt32 → UInt32) : Prop where
  primary : ∀ p, Bridge space p → Reachable space p.bus → p.primaryBus space = p.bus
  secondary : ∀ p, Bridge space p → Reachable space p.bus → p.bus < p.secondaryBus space
  parent : ∀ p q, Bridge space p → Bridge space q → Reachable space p.bus → Reachable space q.bus →
    p.secondaryBus space = q.secondaryBus space → p = q
  subordinate : ∀ p, Bridge space p → Reachable space p.bus →
    ∀ c, ReflTransGen (Behind space) (p.secondaryBus space) c →
      p.secondaryBus space ≤ c ∧ c ≤ p.subordinateBus space
  apart : ∀ p q, Bridge space p → Bridge space q → Reachable space p.bus → q.bus = p.bus → p ≠ q →
    p.subordinateBus space < q.secondaryBus space ∨ q.subordinateBus space < p.secondaryBus space

/-- A bridge that the enumeration follows. -/
structure FollowedBridge (space : UInt32 → UInt32) (p : Position) : Prop where
  slot : p.slot < 32
  function : p.function = 0
  check : halCheckPciDevice space p
  header : p.headerType space = 1

theorem FollowedBridge.first (h : FollowedBridge space p) : p.first = p := by
  rw [Position.first, ← h.function]

theorem FollowedBridge.present (h : FollowedBridge space p) : Present space p where
  slot := h.slot
  first := by
    rw [h.first]
    exact h.check
  other hne := absurd h.function hne

theorem followed_iff :
    Followed space bus c ↔ ∃ p, FollowedBridge space p ∧ p.bus = bus ∧ p.secondary space = c := by
  constructor
  · rintro ⟨dev, hdev, hcheck, hheader, hsecondary⟩
    exact ⟨_, ⟨slot_lt_iff.mpr ⟨dev, hdev, rfl⟩, rfl, hcheck, hheader⟩, rfl, hsecondary⟩
  · rintro ⟨p, hp, rfl, hsecondary⟩
    obtain ⟨dev, hdev, hslot⟩ := slot_lt_iff.mp hp.slot
    have hself : (⟨p.bus, UInt8.ofNat dev, 0⟩ : Position) = p := by
      rw [← hslot, ← hp.function]
    refine ⟨dev, hdev, ?_, ?_, ?_⟩
    · rw [hself]
      exact hp.check
    · rw [hself]
      exact hp.header
    · rw [hself]
      exact hsecondary

/-! ## Places -/

/-- An element of the lists that are joined stands in one of them. -/
theorem getElem?_flatMap {γ δ : Type} {f : γ → List δ} {l : List γ} {x : δ} (h : (l.flatMap f)[k]? = some x) :
    ∃ pre y post j, l = pre ++ y :: post ∧ (f y)[j]? = some x ∧ k = (pre.flatMap f).length + j := by
  induction l generalizing k with
  | nil => cases h
  | cons z l ih =>
    rw [List.flatMap_cons] at h
    rcases Nat.lt_or_ge k (f z).length with hlt | hge
    · rw [List.getElem?_append_left hlt] at h
      exact ⟨[], z, l, k, rfl, h, (Nat.zero_add k).symm⟩
    · rw [List.getElem?_append_right hge] at h
      obtain ⟨pre, y, post, j, rfl, hj, hk⟩ := ih h
      refine ⟨z :: pre, y, post, j, rfl, hj, ?_⟩
      rw [List.flatMap_cons, List.length_append]
      omega

theorem getElem?_flatMap_append {γ δ : Type} {f : γ → List δ} {pre post : List γ} {y : γ} {x : δ} {j : ℕ}
    (h : (f y)[j]? = some x) :
    ((pre ++ y :: post).flatMap f)[(pre.flatMap f).length + j]? = some x := by
  rw [List.flatMap_append, List.flatMap_cons, List.getElem?_append_right (Nat.le_add_right _ _),
    Nat.add_sub_cancel_left, List.getElem?_append_left (List.getElem?_eq_some_iff.mp h).1]
  exact h

/-- A device that is followed has two parts. -/
theorem deviceParts_of_followed {dev : ℕ} (hcheck : halCheckPciDevice space ⟨bus, UInt8.ofNat dev, 0⟩)
    (hheader : Position.headerType ⟨bus, UInt8.ofNat dev, 0⟩ space = 1) :
    deviceParts space bus dev = [.emit ⟨bus, UInt8.ofNat dev, 0⟩,
      .descend (Position.secondary ⟨bus, UInt8.ofNat dev, 0⟩ space)] := by
  rw [deviceParts_eq]
  dsimp only
  rw [if_pos hcheck, if_pos hheader]

/-- **Where the walk goes on**: right behind the registration of a bridge that is followed. -/
theorem descend_place (h : (busParts space bus)[k]? = some (.descend c)) :
    ∃ p j, FollowedBridge space p ∧ p.bus = bus ∧ p.secondary space = c ∧ k = j + 1 ∧
      (busParts space bus)[j]? = some (.emit p) := by
  rw [busParts] at h ⊢
  obtain ⟨pre, dev, post, j, hrange, hj, rfl⟩ := getElem?_flatMap h
  have hdev : dev < 32 := by
    apply List.mem_range.mp
    rw [hrange]
    exact List.mem_append_right _ (List.mem_cons_self ..)
  obtain ⟨hcheck, hheader, hsecondary⟩ := descend_mem_deviceParts.mp (List.mem_of_getElem? hj)
  have hparts := deviceParts_of_followed hcheck hheader
  have hone : j = 1 := by
    rw [hparts] at hj
    rcases j with _ | _ | j
    · cases hj
    · rfl
    · cases hj
  refine ⟨_, (pre.flatMap (deviceParts space bus)).length + 0,
    ⟨slot_lt_iff.mpr ⟨dev, hdev, rfl⟩, rfl, hcheck, hheader⟩, rfl, hsecondary, ?_, ?_⟩
  · rw [hone]
  · rw [hrange]
    apply getElem?_flatMap_append
    rw [hparts]
    rfl

/-- A bridge that is followed has its place. -/
theorem FollowedBridge.place (h : FollowedBridge space p) :
    ∃ j, (busParts space p.bus)[j]? = some (.emit p) ∧
      (busParts space p.bus)[j + 1]? = some (.descend (p.secondary space)) := by
  obtain ⟨dev, hdev, hslot⟩ := slot_lt_iff.mp h.slot
  have hself : (⟨p.bus, UInt8.ofNat dev, 0⟩ : Position) = p := by
    rw [← hslot, ← h.function]
  have hparts : deviceParts space p.bus dev = [.emit p, .descend (p.secondary space)] := by
    have hfollowed : deviceParts space p.bus dev = _ :=
      deviceParts_of_followed (by rw [hself]; exact h.check) (by rw [hself]; exact h.header)
    rwa [hself] at hfollowed
  obtain ⟨pre, post, hrange⟩ := List.append_of_mem (List.mem_range.mpr hdev)
  refine ⟨(pre.flatMap (deviceParts space p.bus)).length + 0, ?_, ?_⟩
  · rw [busParts, hrange]
    apply getElem?_flatMap_append
    rw [hparts]
    rfl
  · rw [busParts, hrange, Nat.add_assoc]
    apply getElem?_flatMap_append
    rw [hparts]
    rfl

/-! ## Repetition -/

/-- The buses that the enumeration comes to. -/
def Walked (space : UInt32 → UInt32) (bus : UInt8) : Prop := ReflTransGen (Followed space) 0 bus

/-- A bus with a function. -/
def Populated (space : UInt32 → UInt32) (bus : UInt8) : Prop := ∃ p, Present space p ∧ p.bus = bus

theorem populated_iff : Populated space bus ↔ ∃ p, .emit p ∈ busParts space bus := by
  constructor
  · rintro ⟨p, hpresent, hbus⟩
    exact ⟨p, emit_mem_busParts.mpr ⟨hbus, hpresent⟩⟩
  · rintro ⟨p, hp⟩
    obtain ⟨hbus, hpresent⟩ := emit_mem_busParts.mp hp
    exact ⟨p, hpresent, hbus⟩

/-- No two bridges that are followed lead to one bus with a function. -/
def OneWay (space : UInt32 → UInt32) : Prop :=
  ∀ p q, FollowedBridge space p → FollowedBridge space q → Walked space p.bus → Walked space q.bus →
    p.secondary space = q.secondary space → Populated space (p.secondary space) → p = q

/-- **Repetition**: without cycles no function is registered twice exactly if no two bridges lead to it. -/
theorem nodup_iff_oneWay (hacyclic : Acyclic space 0) (hps : preorder (busParts space) fuel 0 = some ps) :
    ps.Nodup ↔ OneWay space := by
  have hcycles : ∀ c, Visited (busParts space) 0 c → ¬ TransGen (Descends (busParts space)) c c := by
    rw [Visited, descends_eq]
    exact hacyclic
  -- a bus that is descended to has a bridge leading there
  have hemits : ∀ d c, Descends (busParts space) d c → ∃ p, .emit p ∈ busParts space d := by
    intro d c hc
    obtain ⟨p, hp, rfl, -⟩ := followed_iff.mp (descends_iff.mp hc)
    exact ⟨p, emit_mem_busParts.mpr ⟨rfl, hp.present⟩⟩
  have hwalked (d : UInt8) : Visited (busParts space) 0 d ↔ Walked space d := by
    rw [Visited, descends_eq, Walked]
  rw [preorder_nodup_iff hps fun c c' i i' p => emit_place, routes_unique_iff hcycles hemits]
  constructor
  · intro hlast p q hp hq hpbus hqbus hsame hpopulated
    obtain ⟨i, hi, hdescend⟩ := hp.place
    obtain ⟨j, hj, hdescend'⟩ := hq.place
    rw [← hsame] at hdescend'
    obtain ⟨hbus, hplace⟩ := hlast _ _ _ _ _ ((hwalked _).mpr hpbus) ((hwalked _).mpr hqbus) hdescend hdescend'
      (populated_iff.mp hpopulated)
    obtain rfl := Nat.succ.inj hplace
    rw [← hbus, hi] at hj
    exact Part.emit.inj (Option.some.inj hj)
  · -- two ways to one bus are two bridges with one secondary bus
    intro honce c d d' i i' hd hd' hi hi' hemit
    obtain ⟨p, j, hp, rfl, hsecondary, rfl, hj⟩ := descend_place hi
    obtain ⟨q, j', hq, rfl, hsecondary', rfl, hj'⟩ := descend_place hi'
    have hpopulated : Populated space (p.secondary space) := by
      rw [hsecondary]
      exact populated_iff.mpr hemit
    obtain rfl := honce p q hp hq ((hwalked _).mp hd) ((hwalked _).mp hd') (hsecondary.trans hsecondary'.symm)
      hpopulated
    obtain ⟨-, rfl⟩ := emit_place hj hj'
    exact ⟨rfl, rfl⟩

/-! ## The enumeration -/

/-- **What the enumeration is meant to do**: it returns, and for every function on the reachable buses there
is one object in the directory, and no other one. -/
def EnumeratesExactly (space : UInt32 → UInt32) (t : PciState) (dir : ℕ) : Prop :=
  ∃ fuel₀, ∀ fuel, fuel₀ ≤ fuel → ∃ s objects,
    halCheckPciBus space (registerPciDevice fuel space) fuel t 0 = .ok s ∧
    DirsExact s.kernel [dir] (fun _ => objects) ∧
    (objects.map fun o => (s.objects o).position).Nodup ∧
    ∀ p, p ∈ objects.map (fun o => (s.objects o).position) ↔ Present space p ∧ Reachable space p.bus

/-- The bridges that are followed lead without cycles and each in one way to the reachable buses that have
functions, and these are not more than names. -/
structure FollowsBridges (space : UInt32 → UInt32) : Prop where
  acyclic : Acyclic space 0
  oneWay : OneWay space
  walked : ∀ bus, Populated space bus → (Walked space bus ↔ Reachable space bus)
  few : {p | Present space p ∧ Reachable space p.bus}.ncard ≤ 1000

theorem position_pciObject (space : UInt32 → UInt32) (p : Position) : (pciObject space p).position = p := by
  unfold pciObject
  dsimp only
  split_ifs
  · rfl
  · rfl

/-- The list of a directory is determined. -/
theorem dirsExact_unique {k : State} {d : ℕ} {l l' : List ℕ} (h : DirsExact k [d] fun _ => l)
    (h' : DirsExact k [d] fun _ => l') : l = l' := by
  obtain ⟨entries, hchain, hnonnull, hitems⟩ := h d (List.mem_singleton_self d)
  obtain ⟨entries', hchain', hnonnull', hitems'⟩ := h' d (List.mem_singleton_self d)
  obtain rfl := hchain.unique hchain' hnonnull hnonnull'
  exact hitems.symm.trans hitems'

/-- The functions of the objects. -/
theorem Registered.positions {s : PciState} (h : Registered space t s dir ps) :
    ((List.range ps.length).map (objectBlock t.kernel)).map (fun o => (s.objects o).position) = ps := by
  have hrecords := congrArg (List.map PCIObject.position) h.records
  rw [List.map_map, List.map_map (l := ps)] at hrecords
  refine hrecords.trans ?_
  have hposition : PCIObject.position ∘ pciObject space = id := funext (position_pciObject space)
  rw [hposition, List.map_id]

/-- The number of the functions that a list without repetition holds. -/
theorem ncard_eq_length {P : Position → Prop} (hnodup : ps.Nodup) (hmem : ∀ p, p ∈ ps ↔ P p) :
    {p | P p}.ncard = ps.length := by
  have hset : {p | P p} = (ps.toFinset : Set Position) := by
    ext p
    rw [Set.mem_ofPred_eq, ← hmem, Finset.mem_coe, List.mem_toFinset]
  rw [hset, Set.ncard_coe_finset, List.toFinset_card_of_nodup hnodup]

theorem EnumeratesExactly.followsBridges (hstart : PciStart t.kernel devices dir) (hcount : t.deviceCount = 0)
    (h : EnumeratesExactly space t dir) : FollowsBridges space := by
  obtain ⟨fuel₀, hall⟩ := h
  obtain ⟨fuel₁, hlocated⟩ := hstart.located
  obtain ⟨s, objects, hrun, hdirs, hnodup, hmem⟩ := hall (max fuel₀ (max fuel₁ 1000)) (le_max_left ..)
  obtain ⟨ps, hps, hlen, hregistered⟩ :=
    registered_of_enumeration hstart hcount (hlocated _ (by omega)) (by omega) hrun
  obtain rfl := dirsExact_unique hdirs (hregistered.dirsExact hstart.blocks)
  rw [hregistered.positions] at hnodup hmem
  have hacyclic : Acyclic space 0 := by
    apply exists_preorder_iff_acyclic.mp
    refine ⟨max fuel₀ (max fuel₁ 1000), ?_⟩
    rw [hps]
    rfl
  refine ⟨hacyclic, (nodup_iff_oneWay hacyclic hps).mp hnodup, fun bus hbus => ?_, ?_⟩
  · obtain ⟨p, hpresent, rfl⟩ := hbus
    have hboth := (mem_walk hps).symm.trans (hmem p)
    exact ⟨fun hwalked => (hboth.mp ⟨hpresent, hwalked⟩).2, fun hreach => (hboth.mpr ⟨hpresent, hreach⟩).2⟩
  · rw [ncard_eq_length hnodup hmem]
    exact hlen

theorem FollowsBridges.enumeratesExactly (hstart : PciStart t.kernel devices dir) (hcount : t.deviceCount = 0)
    (h : FollowsBridges space) : EnumeratesExactly space t dir := by
  obtain ⟨fuel₁, hlocated⟩ := hstart.located
  obtain ⟨fuel₂, hsome⟩ := exists_preorder_iff_acyclic.mpr h.acyclic
  refine ⟨max fuel₁ (max fuel₂ 1000), fun fuel hfuel => ?_⟩
  obtain ⟨ps, hps⟩ := Option.isSome_iff_exists.mp (preorder_isSome_mono hsome (by omega : fuel₂ ≤ fuel))
  have hnodup : ps.Nodup := (nodup_iff_oneWay h.acyclic hps).mpr h.oneWay
  have hmem (p : Position) : p ∈ ps ↔ Present space p ∧ Reachable space p.bus := by
    rw [mem_walk hps]
    exact and_congr_right fun hpresent => h.walked _ ⟨p, hpresent, rfl⟩
  have hlen : ps.length ≤ 1000 := by
    rw [← ncard_eq_length hnodup hmem]
    exact h.few
  obtain ⟨s, hrun, hregistered⟩ :=
    enumeration_returns hstart hcount (hlocated _ (by omega)) (by omega) hps hlen
  refine ⟨s, _, hrun, hregistered.dirsExact hstart.blocks, ?_, ?_⟩
  · rw [hregistered.positions]
    exact hnodup
  · rw [hregistered.positions]
    exact hmem

/-- **The enumeration** is complete and without repetition exactly where it follows the bridges. -/
theorem enumerates_iff (hstart : PciStart t.kernel devices dir) (hcount : t.deviceCount = 0) :
    EnumeratesExactly space t dir ↔ FollowsBridges space :=
  ⟨EnumeratesExactly.followsBridges hstart hcount, FollowsBridges.enumeratesExactly hstart hcount⟩

/-- A tree in which every bridge has function 0 of a device alone and the number of its bus at `0x1D` too. -/
structure PlainTree (space : UInt32 → UInt32) : Prop extends NumberedTree space where
  plain : ∀ p, Bridge space p → Reachable space p.bus →
    p.function = 0 ∧ p.headerType space = 1 ∧ p.secondary space = p.secondaryBus space
  few : {p | Present space p ∧ Reachable space p.bus}.ncard ≤ 1000

/-- From a reachable bus the followed bridges are all bridges. -/
theorem PlainTree.followed_iff (h : PlainTree space) (hbus : Reachable space bus) :
    Followed space bus c ↔ Behind space bus c := by
  rw [Pci.followed_iff]
  constructor
  · rintro ⟨p, hp, rfl, rfl⟩
    have hbridge : Bridge space p := ⟨hp.present, by rw [hp.header]; decide⟩
    exact ⟨p, hbridge, rfl, (h.plain p hbridge hbus).2.2.symm⟩
  · rintro ⟨p, hp, rfl, rfl⟩
    obtain ⟨hfunction, hheader, hsecondary⟩ := h.plain p hp hbus
    exact ⟨p, ⟨hp.present.slot, hfunction, hp.present.check, hheader⟩, rfl, hsecondary⟩

theorem PlainTree.walked_iff (h : PlainTree space) : Walked space bus ↔ Reachable space bus := by
  constructor
  · intro hwalked
    induction hwalked with
    | refl => exact ReflTransGen.refl
    | tail _ hstep ih => exact ih.tail ((h.followed_iff ih).mp hstep)
  · intro hreach
    induction hreach with
    | refl => exact ReflTransGen.refl
    | tail hreach hstep ih => exact ih.tail ((h.followed_iff hreach).mpr hstep)

/-- Numbers of buses go up. -/
theorem PlainTree.lt_of_followed (h : PlainTree space) (hbus : Walked space bus)
    (hpath : TransGen (Followed space) bus c) : bus < c := by
  have hstep {b d : UInt8} (hb : Walked space b) (hbd : Followed space b d) : b < d := by
    obtain ⟨p, hp, rfl, rfl⟩ := (h.followed_iff (h.walked_iff.mp hb)).mp hbd
    exact h.secondary p hp (h.walked_iff.mp hb)
  induction hpath with
  | single hlast => exact hstep hbus hlast
  | tail hpath hlast ih => exact UInt8.lt_trans ih (hstep (hbus.trans hpath.to_reflTransGen) hlast)

theorem PlainTree.followsBridges (h : PlainTree space) : FollowsBridges space where
  acyclic c hc hcycle := absurd (h.lt_of_followed hc hcycle) (UInt8.lt_irrefl c)
  oneWay p q hp hq hpbus hqbus hsame _ := by
    have hp' : Bridge space p := ⟨hp.present, by rw [hp.header]; decide⟩
    have hq' : Bridge space q := ⟨hq.present, by rw [hq.header]; decide⟩
    have hpreach := h.walked_iff.mp hpbus
    have hqreach := h.walked_iff.mp hqbus
    apply h.parent p q hp' hq' hpreach hqreach
    rw [← (h.plain p hp' hpreach).2.2, hsame, (h.plain q hq' hqreach).2.2]
  walked bus _ := h.walked_iff
  few := h.few

/-! ## One bridge -/

/-- A bridge in slot 3 of bus 0 with a device behind it on bus 1. -/
structure OneBridge (space : UInt32 → UInt32) : Prop where
  zero : ∀ p, Present space p → p.bus = 0 → p = ⟨0, 3, 0⟩
  one : ∀ p, Present space p → p.bus = 1 → p = ⟨1, 0, 0⟩
  device : Present space ⟨1, 0, 0⟩
  deviceHeader : Position.headerType ⟨1, 0, 0⟩ space = 0
  bridge : Present space ⟨0, 3, 0⟩
  bridgeHeader : Position.headerType ⟨0, 3, 0⟩ space = 1
  primary : Position.primaryBus ⟨0, 3, 0⟩ space = 0
  secondary : Position.secondaryBus ⟨0, 3, 0⟩ space = 1
  subordinate : Position.subordinateBus ⟨0, 3, 0⟩ space = 1

theorem OneBridge.behind_zero (h : OneBridge space) : Behind space 0 c ↔ c = 1 := by
  constructor
  · rintro ⟨p, hp, hbus, rfl⟩
    rw [h.zero p hp.present hbus]
    exact h.secondary
  · rintro rfl
    exact ⟨_, ⟨h.bridge, by rw [h.bridgeHeader]; decide⟩, rfl, h.secondary⟩

theorem OneBridge.not_behind_one (h : OneBridge space) (c : UInt8) : ¬ Behind space 1 c := by
  rintro ⟨p, hp, hbus, -⟩
  have hheader := hp.header
  rw [h.one p hp.present hbus, h.deviceHeader] at hheader
  exact absurd hheader (by decide)

theorem OneBridge.path_one (h : OneBridge space) (hpath : ReflTransGen (Behind space) 1 c) : c = 1 := by
  rcases ReflTransGen.cases_head hpath with heq | ⟨d, hd, -⟩
  · exact heq.symm
  · exact absurd hd (h.not_behind_one d)

theorem OneBridge.reachable_iff (h : OneBridge space) : Reachable space bus ↔ bus = 0 ∨ bus = 1 := by
  constructor
  · intro hreach
    rcases ReflTransGen.cases_head hreach with heq | ⟨d, hd, hrest⟩
    · exact .inl heq.symm
    · obtain rfl := h.behind_zero.mp hd
      exact .inr (h.path_one hrest)
  · rintro (rfl | rfl)
    · exact ReflTransGen.refl
    · exact ReflTransGen.single (h.behind_zero.mpr rfl)

theorem OneBridge.bridge_eq (h : OneBridge space) (hp : Bridge space p) (hbus : Reachable space p.bus) :
    p = ⟨0, 3, 0⟩ := by
  rcases h.reachable_iff.mp hbus with hzero | hone
  · exact h.zero p hp.present hzero
  · exact absurd ⟨p, hp, hone, rfl⟩ (h.not_behind_one _)

theorem OneBridge.numberedTree (h : OneBridge space) : NumberedTree space where
  primary p hp hbus := by
    rw [h.bridge_eq hp hbus]
    exact h.primary
  secondary p hp hbus := by
    rw [h.bridge_eq hp hbus, h.secondary]
    decide
  parent p q hp hq hpbus hqbus _ := (h.bridge_eq hp hpbus).trans (h.bridge_eq hq hqbus).symm
  subordinate p hp hbus c hc := by
    rw [h.bridge_eq hp hbus, h.secondary] at hc ⊢
    rw [h.path_one hc, h.subordinate]
    decide
  apart p q hp hq hbus hsame hne := by
    have hqbus : Reachable space q.bus := by
      rw [hsame]
      exact hbus
    exact absurd ((h.bridge_eq hp hbus).trans (h.bridge_eq hq hqbus).symm) hne

/-- The functions on the reachable buses. -/
theorem OneBridge.functions (h : OneBridge space) :
    {p | Present space p ∧ Reachable space p.bus} = {⟨0, 3, 0⟩, ⟨1, 0, 0⟩} := by
  ext p
  simp only [Set.mem_ofPred_eq, Set.mem_insert_iff, Set.mem_singleton_iff]
  constructor
  · rintro ⟨hpresent, hbus⟩
    rcases h.reachable_iff.mp hbus with hzero | hone
    · exact .inl (h.zero p hpresent hzero)
    · exact .inr (h.one p hpresent hone)
  · rintro (rfl | rfl)
    · exact ⟨h.bridge, h.reachable_iff.mpr (.inl rfl)⟩
    · exact ⟨h.device, h.reachable_iff.mpr (.inr rfl)⟩

/-- The functions of a bus, from those of its slots. -/
theorem eq_of_present {slot : ℕ} (hp : Present space p) (hbus : p.bus = bus)
    (honly : ∀ dev < 32, ∀ func < 8, halCheckPciDevice space ⟨bus, UInt8.ofNat dev, UInt8.ofNat func⟩ →
      dev = slot ∧ func = 0) : p = ⟨bus, UInt8.ofNat slot, 0⟩ := by
  have hfunction : p.function.toNat < 8 := by
    by_cases hzero : p.function = 0
    · rw [hzero]
      decide
    · exact UInt8.lt_iff_toNat_lt.mp (hp.other hzero).2.1
  have hself : (⟨bus, UInt8.ofNat p.slot.toNat, UInt8.ofNat p.function.toNat⟩ : Position) = p := by
    rw [UInt8.ofNat_toNat, UInt8.ofNat_toNat, ← hbus]
  obtain ⟨hslot, hzero⟩ := honly p.slot.toNat (UInt8.lt_iff_toNat_lt.mp hp.slot) p.function.toNat hfunction
    (by rw [hself]; exact hp.check)
  rw [← hself, hslot, hzero]
  rfl

theorem bridgeSpace_oneBridge : OneBridge bridgeSpace where
  zero p hp hbus := eq_of_present hp hbus (by decide)
  one p hp hbus := eq_of_present hp hbus (by decide)
  device := ⟨by decide, by decide, fun hne => absurd rfl hne⟩
  deviceHeader := by decide
  bridge := ⟨by decide, by decide, fun hne => absurd rfl hne⟩
  bridgeHeader := by decide
  primary := by decide
  secondary := by decide
  subordinate := by decide

/-- The bridge and the device are registered where the number of the bus is at `0x1D` too. -/
theorem enumerates_bridgeSpace : EnumeratesExactly bridgeSpace bootDevices 0x1400 := by
  refine (enumerates_iff bootDevices_start rfl).mpr (PlainTree.followsBridges ?_)
  refine ⟨bridgeSpace_oneBridge.numberedTree, fun p hp hbus => ?_, ?_⟩
  · rw [bridgeSpace_oneBridge.bridge_eq hp hbus]
    exact ⟨rfl, bridgeSpace_oneBridge.bridgeHeader, by decide⟩
  · rw [bridgeSpace_oneBridge.functions]
    exact (Set.ncard_insert_le _ _).trans (by rw [Set.ncard_singleton]; decide)

/-- The same bridge with I/O addresses from `0x1000` to `0x1FFF`. -/
def ioSpace : UInt32 → UInt32 :=
  configSpace [(⟨0, 3, 0⟩, [(0, 0x12348086), (0xC, 0x00010000), (0x18, 0x00010100), (0x1C, 0x00001F10)]),
    (⟨1, 0, 0⟩, [(0, 0x56788086)])]

theorem ioSpace_oneBridge : OneBridge ioSpace where
  zero p hp hbus := eq_of_present hp hbus (by decide)
  one p hp hbus := eq_of_present hp hbus (by decide)
  device := ⟨by decide, by decide, fun hne => absurd rfl hne⟩
  deviceHeader := by decide
  bridge := ⟨by decide, by decide, fun hne => absurd rfl hne⟩
  bridgeHeader := by decide
  primary := by decide
  secondary := by decide
  subordinate := by decide

/-- The enumeration goes on with the empty bus 31. -/
theorem followed_ioSpace (h : Walked ioSpace bus) : bus = 0 ∨ bus = 31 := by
  induction h with
  | refl => exact .inl rfl
  | tail _ hstep ih =>
    obtain ⟨p, hp, rfl, rfl⟩ := followed_iff.mp hstep
    rcases ih with hzero | hlast
    · have hsecondary : Position.secondary ⟨0, 3, 0⟩ ioSpace = 31 := by decide
      rw [ioSpace_oneBridge.zero p hp.present hzero]
      exact .inr hsecondary
    · -- nothing is there
      have hempty : ∀ dev < 32, ¬ halCheckPciDevice ioSpace ⟨31, UInt8.ofNat dev, 0⟩ := by decide
      obtain ⟨dev, hdev, hslot⟩ := slot_lt_iff.mp hp.slot
      have hself : (⟨31, UInt8.ofNat dev, 0⟩ : Position) = p := by
        rw [← hslot, ← hlast, ← hp.function]
      exact absurd (hself ▸ hp.check) (hempty dev hdev)

/-- The device behind the bridge is not registered. -/
theorem device_not_enumerated : NumberedTree ioSpace ∧ Present ioSpace ⟨1, 0, 0⟩ ∧ Reachable ioSpace 1 ∧
    ¬ EnumeratesExactly ioSpace bootDevices 0x1400 := by
  have hreach : Reachable ioSpace 1 := ioSpace_oneBridge.reachable_iff.mpr (.inr rfl)
  refine ⟨ioSpace_oneBridge.numberedTree, ioSpace_oneBridge.device, hreach, fun henumerates => ?_⟩
  have hfollows := henumerates.followsBridges bootDevices_start rfl
  have hwalked := (hfollows.walked 1 ⟨_, ioSpace_oneBridge.device, rfl⟩).mpr hreach
  rcases followed_ioSpace hwalked with heq | heq
  · exact absurd heq (by decide)
  · exact absurd heq (by decide)

end Cutesugar.Kernel.Pci
