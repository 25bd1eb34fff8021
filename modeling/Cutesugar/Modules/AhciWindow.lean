import Cutesugar.Kernel.Arch.VirtualStores
import Cutesugar.Modules.Ahci

/-!
# The window of the disk driver (`modules/ahci/ahci.c`)

The driver takes frames of the pool and maps each of them at its own address plus `MMIO_OFFSET`. A frame that
was taken so is one that nobody else uses, and it is reached at one address only.

- `Windowed`: the pages of the window are bound to their own frames.
- `Held`: a frame that was taken.
- `Drives`: what a piece of the driver does to the frames and to all other memory.
-/

namespace Cutesugar.Modules

open Kernel.Mmu Lib Lib.Memory

/-! ## The window -/

/-- `address + MMIO_OFFSET`. -/
def mmioAddress (address : ℕ) : ℕ := (address + mmioOffset) % 2 ^ 64

/-- The page of an address of the window. -/
def windowPage (f : ℕ) : ℕ := f / 4096 + mmioOffset / 4096

/-- The pages that the first 4 GiB are seen at. -/
def windowPages : Set ℕ := {p | ∃ f < 2 ^ 32, p = windowPage f}

variable (P : Platform) (count : ℕ)

/-- **The window**: its pages are bound to frames that nobody else uses, each at its own address; and so
will be the frames that are left, since they lie below 4 GiB. -/
structure Windowed (s : Kernel.Mmu.State) (M : PageMap) : Prop where
  owned : Owned P P.kernelPml4 count s M windowPages
  low : ∀ k, s.stackPosition ≤ k → k < count → s.memList k < 2 ^ 32
  own : ∀ p ∈ windowPages, ∀ f, M p = some f → f < 2 ^ 32 ∧ p = windowPage f

/-- A frame that was taken and mapped. -/
structure Held (M : PageMap) (f : ℕ) : Prop where
  low : f < 2 ^ 32
  aligned : f % 4096 = 0
  bound : M (windowPage f) = some f

/-- The addresses of the tables, and of the frames that are left to become tables. -/
def Spare (s : Kernel.Mmu.State) : Set ℕ :=
  {b | (∃ q t, (View.single P.kernelPml4).Path P.kernelPml4 q ∧ q.length ≤ 3 ∧
      tableAt P s.mem P.kernelPml4 q = some t ∧ t ≤ b ∧ b < t + 4096) ∨
    ∃ k, s.stackPosition ≤ k ∧ k < count ∧ frameAt P s k ≤ b ∧ b < frameAt P s k + 4096}

/-- **What a piece of the driver does**, from state `s` on: it takes at most `n` frames, and writes the physical
addresses of `W`, and tables and frames that are not used yet only if it takes frames. -/
structure Drives (n : ℕ) (W : Set ℕ) (s s' : Kernel.Mmu.State) (M M' : PageMap) : Prop where
  windowed : Windowed P count s' M'
  list : s'.memList = s.memList
  le : s.stackPosition ≤ s'.stackPosition
  taken : s'.stackPosition ≤ s.stackPosition + n
  room : s'.stackPosition ≤ count
  keep : ∀ f, Held M f → Held M' f
  tables : TakesTables P (View.single P.kernelPml4) s s'
  outside : ∀ b, (0 < n → b ∉ Spare P count s) → (∀ w ∈ W, b ≠ w + P.hhdmOffset) → s'.mem b = s.mem b

variable {P count} {s s' s'' : Kernel.Mmu.State} {M M' M'' : PageMap} {n n' f g o l value : ℕ} {W W' : Set ℕ}

/-! ## Addresses of the window -/

theorem windowPage_mem (hlow : f < 2 ^ 32) : windowPage f ∈ windowPages := ⟨f, hlow, rfl⟩

/-- The address of a byte of a frame. -/
theorem mmioAddress_eq (hlow : f < 2 ^ 32) (hmod : f % 4096 = 0) : mmioAddress f = 4096 * windowPage f := by
  have hoffset : mmioOffset = 4096 * (mmioOffset / 4096) := rfl
  have hlt : mmioOffset + 2 ^ 32 < 2 ^ 64 := by decide
  unfold mmioAddress windowPage
  generalize mmioOffset = c at *
  omega

theorem canonical_window {p : ℕ} (hp : p ∈ windowPages) : Canonical (4096 * p) := by
  obtain ⟨f, hlow, rfl⟩ := hp
  have hoffset : mmioOffset / 4096 = 0xFFFFE00000000 := rfl
  unfold windowPage Canonical
  rw [hoffset]
  omega

/-- The frame that a page of the window shows. -/
theorem windowPage_inj (hf : f % 4096 = 0) (hg : g % 4096 = 0) (h : windowPage f = windowPage g) : f = g := by
  unfold windowPage at h
  omega

theorem Windowed.held (h : Windowed P count s M) {p : ℕ} (hp : p ∈ windowPages) (hf : M p = some f) : Held M f := by
  obtain ⟨hlow, rfl⟩ := h.own p hp f hf
  exact ⟨hlow, h.owned.aligned hp hf, hf⟩

/-- A frame that was taken is none of those that are left. -/
theorem Windowed.not_held (h : Windowed P count s M) {k : ℕ} (hk : s.stackPosition ≤ k) (hk' : k < count) :
    ¬ Held M (s.memList k) := fun hheld =>
  h.owned.unused _ (windowPage_mem hheld.low) _ hheld.bound k hk hk' rfl

/-! ## Composition -/

theorem Drives.refl (h : Windowed P count s M) (hroom : s.stackPosition ≤ count) : Drives P count 0 ∅ s s M M where
  windowed := h
  list := rfl
  le := le_rfl
  taken := le_rfl
  room := hroom
  keep _ hf := hf
  tables _ _ _ _ _ ht := .inl ht
  outside _ _ _ := rfl

/-- **One piece after the other.** -/
theorem Drives.trans (h : Drives P count n W s s' M M') (h' : Drives P count n' W' s' s'' M' M'') :
    Drives P count (n + n') (W ∪ W') s s'' M M'' where
  windowed := h'.windowed
  list := h'.list.trans h.list
  le := h.le.trans h'.le
  taken := by
    have hfirst := h.taken
    have hsecond := h'.taken
    omega
  room := h'.room
  keep f hf := h'.keep f (h.keep f hf)
  tables r q u hq hlq hu := by
    rcases h'.tables hq hlq hu with hold | ⟨k, hk, hk', rfl⟩
    · rcases h.tables hq hlq hold with hold | ⟨k, hk, hk', rfl⟩
      · exact .inl hold
      · exact .inr ⟨k, hk, hk'.trans_le h'.le, rfl⟩
    · refine .inr ⟨k, h.le.trans hk, hk', ?_⟩
      rw [frameAt, frameAt, h.list]
  outside b hspare hwritten := by
    have hframe (k : ℕ) : frameAt P s' k = frameAt P s k := by rw [frameAt, frameAt, h.list]
    rw [h'.outside b ?_ fun w hw => hwritten w (.inr hw), h.outside b ?_ fun w hw => hwritten w (.inl hw)]
    · exact fun hn => hspare (Nat.add_pos_left hn n')
    · -- a table or a frame that is left in between was so before
      rintro hn (⟨q, t, hq, hlq, ht, hb⟩ | ⟨k, hk, hk', hb⟩)
      · rcases h.tables hq hlq ht with hold | ⟨k, hk, hk', rfl⟩
        · exact hspare (Nat.add_pos_right n hn) (.inl ⟨q, t, hq, hlq, hold, hb⟩)
        · exact hspare (Nat.add_pos_right n hn) (.inr ⟨k, hk, hk'.trans_le h.room, hb⟩)
      · rw [hframe] at hb
        exact hspare (Nat.add_pos_right n hn) (.inr ⟨k, h.le.trans hk, hk', hb⟩)

/-- Frames that were left count as not used yet, so what is written to them need not be told. -/
theorem Drives.mono (h : Drives P count n W s s' M M') (hn : n ≤ n')
    (hW : ∀ w ∈ W, w ∈ W' ∨
      0 < n' ∧ ∃ k, s.stackPosition ≤ k ∧ k < count ∧ s.memList k ≤ w ∧ w < s.memList k + 4096) :
    Drives P count n' W' s s' M M' :=
  { h with
    taken := h.taken.trans (Nat.add_le_add_left hn _)
    outside := fun b hspare hwritten => by
      refine h.outside b (fun hpos => hspare (hpos.trans_le hn)) fun w hw heq => ?_
      rcases hW w hw with hin | ⟨hpos, k, hk, hk', hle, hlt⟩
      · exact hwritten w hin heq
      · refine hspare hpos (.inr ⟨k, hk, hk', ?_⟩)
        unfold frameAt
        omega }

/-! ## What a frame holds -/

/-- A frame that was taken is no table, and is not left to become one. -/
theorem Windowed.not_mem_spare (hw : Windowed P count s M) (hf : Held M f) (ho : o < 4096) :
    f + P.hhdmOffset + o ∉ Spare P count s := by
  have hp := windowPage_mem hf.low
  rintro (⟨q, t, hq, hlq, ht, hb⟩ | ⟨k, hk, hk', hle, hlt⟩)
  · exact (hw.owned.tables _ hp f hf.bound q t hq hlq ht).not_mem ho hb
  · have hne := hw.owned.unused _ hp f hf.bound k hk hk'
    have hmod := hw.owned.refines.forest.pool.aligned k hk hk'
    have haligned := hf.aligned
    unfold frameAt at hle hlt
    omega

/-- **A frame keeps the bytes** that are not written. -/
theorem Drives.byte_eq (h : Drives P count n W s s' M M') (hw : Windowed P count s M) (hf : Held M f)
    (ho : o < 4096) (hout : f + o ∉ W) : s'.mem (f + P.hhdmOffset + o) = s.mem (f + P.hhdmOffset + o) := by
  refine h.outside _ (fun _ => hw.not_mem_spare hf ho) fun w hwritten heq => ?_
  have hsame : f + o = w := by omega
  exact hout (hsame ▸ hwritten)

theorem Drives.load_eq (h : Drives P count n W s s' M M') (hw : Windowed P count s M) (hf : Held M f)
    (ho : o + l ≤ 4096) (hout : ∀ i < l, f + o + i ∉ W) :
    s'.mem.load (f + P.hhdmOffset + o) l = s.mem.load (f + P.hhdmOffset + o) l := by
  apply load_congr
  intro b hb hb'
  obtain ⟨i, rfl⟩ := Nat.exists_eq_add_of_le hb
  have hbyte := h.byte_eq hw hf (o := o + i) (by omega) (by rw [← Nat.add_assoc]; exact hout i (by omega))
  rwa [← Nat.add_assoc] at hbyte

/-- A frame that was just taken is not used before it is mapped. -/
theorem Drives.unused (h : Drives P count n W s s' M M) (hpos : s'.stackPosition = s.stackPosition)
    (hf : Unused P P.kernelPml4 count s M windowPages f) : Unused P P.kernelPml4 count s' M windowPages f where
  unbound := hf.unbound
  tables q t hq hlq ht := by
    rcases h.tables hq hlq ht with hold | ⟨k, hk, hk', -⟩
    · exact hf.tables q t hq hlq hold
    · rw [hpos] at hk'
      exact absurd hk' (Nat.not_lt.mpr hk)
  pool k hk hk' := by
    rw [h.list]
    exact hf.pool k (hpos ▸ hk) hk'

/-! ## The pieces -/

/-- The addresses of `l` bytes of a frame. -/
def FrameBytes (f o l : ℕ) : Set ℕ := {w | f + o ≤ w ∧ w < f + o + l}

theorem mem_frameBytes {w : ℕ} : w ∈ FrameBytes f o l ↔ f + o ≤ w ∧ w < f + o + l := Iff.rfl

/-- Writing bytes of frames that were taken. -/
theorem Windowed.writes (h : Windowed P count s M) (hroom : s.stackPosition ≤ count) {m : Memory}
    (hW : ∀ w ∈ W, ∃ f, Held M f ∧ f ≤ w ∧ w < f + 4096)
    (hm : ∀ b, (∀ w ∈ W, b ≠ w + P.hhdmOffset) → m b = s.mem b) :
    Drives P count 0 W s (s.withMem m) M M := by
  -- the entries of tables are other bytes
  have hentry : ∀ r q u j, (View.single P.kernelPml4).Path r q → q.length ≤ 3 →
      tableAt P s.mem r q = some u → j < 512 → entry m u j = entry s.mem u j := by
    intro r q u j hq hlq hu hj
    obtain rfl : r = P.kernelPml4 := hq.1
    refine load64_congr fun c hc hc' => hm c ?_
    rintro w hw rfl
    obtain ⟨f, hf, hle, hlt⟩ := hW w hw
    have hout := h.owned.tables _ (windowPage_mem hf.low) f hf.bound q u hq hlq hu
    unfold Apart at hout
    omega
  exact {
    windowed := ⟨h.owned.congr fun q u j hq hlq hu hj => hentry _ q u j hq hlq hu hj, h.low, h.own⟩
    list := rfl
    le := le_rfl
    taken := le_rfl
    room := hroom
    keep := fun _ hf => hf
    tables := fun r q u hq hlq hu => .inl (by rwa [tableAt_congr hq hlq hentry] at hu)
    outside := fun b _ hwritten => hm b hwritten }

/-- Writing a part of a frame. -/
theorem Windowed.writesFrame (h : Windowed P count s M) (hroom : s.stackPosition ≤ count) (hf : Held M f)
    (ho : o + l ≤ 4096) {m : Memory}
    (hm : ∀ b, ¬ (f + P.hhdmOffset + o ≤ b ∧ b < f + P.hhdmOffset + o + l) → m b = s.mem b) :
    Drives P count 0 (FrameBytes f o l) s (s.withMem m) M M := by
  refine h.writes hroom (fun w hw => ?_) fun b hb => hm b ?_
  · obtain ⟨hle, hlt⟩ := mem_frameBytes.mp hw
    exact ⟨f, hf, by omega, by omega⟩
  · rintro ⟨hle, hlt⟩
    exact hb (b - P.hhdmOffset) ⟨by omega, by omega⟩ (by omega)

/-- **An assignment** through the window. -/
theorem Windowed.storeAt (h : Windowed P count s M) (hroom : s.stackPosition ≤ count) (hf : Held M f)
    (ho : o + l ≤ 4096) (value : ℕ) :
    ∃ s', storeAt P s (mmioAddress f + o) l value = some s' ∧
      Drives P count 0 (FrameBytes f o l) s s' M M ∧ s'.stackPosition = s.stackPosition ∧
      s'.mem = s.mem.store (f + P.hhdmOffset + o) l value := by
  have haddress := congrArg (· + o) (mmioAddress_eq hf.low hf.aligned)
  have hstore : Kernel.Mmu.storeAt P s (mmioAddress f + o) l value = _ ∧ _ :=
    h.owned.storeAt_eq (windowPage_mem hf.low) hf.bound haddress ho
  exact ⟨_, hstore.1, h.writesFrame hroom hf ho fun b hb => store_apply_of_not_mem hb, rfl, rfl⟩

/-- **Clearing** a part of a frame through the window. -/
theorem Windowed.memsetAt (h : Windowed P count s M) (hroom : s.stackPosition ≤ count) (hf : Held M f)
    (ho : o + l ≤ 4096) :
    ∃ s', memsetAt P s (mmioAddress f + o) 0 l = some s' ∧
      Drives P count 0 (FrameBytes f o l) s s' M M ∧ s'.stackPosition = s.stackPosition ∧
      s'.mem = s.mem.memset (f + P.hhdmOffset + o) 0 l := by
  have haddress := congrArg (· + o) (mmioAddress_eq hf.low hf.aligned)
  obtain ⟨heq, -⟩ := h.owned.memsetAt_eq (c := 0) (windowPage_mem hf.low) hf.bound haddress ho
  exact ⟨_, heq, h.writesFrame hroom hf ho fun b hb => memset_apply_of_not_mem hb, rfl, rfl⟩

/-- **Reading a field** through the window. -/
theorem Windowed.loadAt (h : Windowed P count s M) (hf : Held M f) (ho : o + l ≤ 4096) :
    loadAt P s (mmioAddress f + o) l = some (s.mem.load (f + P.hhdmOffset + o) l) :=
  h.owned.loadAt_eq (windowPage_mem hf.low) hf.bound (congrArg (· + o) (mmioAddress_eq hf.low hf.aligned)) ho

/-- **Taking a frame.** -/
theorem Windowed.allocate (h : Windowed P count s M) (hroom : s.stackPosition < count) :
    ∃ s', kernelAllocateFrame s = (s.memList s.stackPosition, s') ∧ Drives P count 1 ∅ s s' M M ∧
      s'.stackPosition = s.stackPosition + 1 ∧
      Unused P P.kernelPml4 count s' M windowPages (s.memList s.stackPosition) ∧
      s.memList s.stackPosition < 2 ^ 32 ∧ s.memList s.stackPosition % 4096 = 0 := by
  refine ⟨_, rfl, ?_, rfl, h.owned.unused_allocate hroom, h.low _ le_rfl hroom,
    h.owned.refines.forest.pool.aligned _ le_rfl hroom⟩
  exact {
    windowed := ⟨h.owned.allocate, fun k hk => h.low k (Nat.le_of_succ_le hk), h.own⟩
    list := rfl
    le := Nat.le_succ _
    taken := le_rfl
    room := hroom
    keep := fun _ hf => hf
    tables := fun _ _ _ _ _ hu => .inl hu
    outside := fun _ _ _ => rfl }

/-- What a page is bound to stays bound. -/
theorem map_keep {p p' : ℕ} (hp : M p = some f) : M.map p' g p = some f := by
  unfold PageMap.map
  split_ifs with hsome
  · exact hp
  · rcases eq_or_ne p p' with rfl | hne
    · rw [hp] at hsome
      exact absurd rfl hsome
    · rwa [Function.update_of_ne hne]

/-- **A mapping** by the kernel: in the window it must be of a frame that is not used, at its own address. -/
theorem Windowed.mapMmio (h : Windowed P count s M) {v : ℕ} (hv : Canonical v) (haligned : f % 4096 = 0)
    (hbelow : f < 2 ^ 63) (hroom : (kernelMapMmio P s v f).stackPosition ≤ count)
    (hwindow : v / 4096 ∈ windowPages → M (v / 4096) = none →
      (f < 2 ^ 32 ∧ v / 4096 = windowPage f) ∧ Unused P P.kernelPml4 count s M windowPages f) :
    Drives P count 3 ∅ s (kernelMapMmio P s v f) M (M.map (v / 4096) f) := by
  have hpos := mapValue_pool P s P.kernelPml4 v f (0x10 ||| 0x8 ||| 0x3)
  have hmaps := h.owned.mapValue P.kernelPml4_ne hv haligned hbelow flags_mmio hroom
    fun hp hnone => (hwindow hp hnone).2
  change Maps P P.kernelPml4 count s (kernelMapMmio P s v f) _ _ at hmaps
  change (kernelMapMmio P s v f).memList = _ ∧ (kernelMapMmio P s v f).stackPosition ≤ _ at hpos
  generalize kernelMapMmio P s v f = s' at *
  refine {
    windowed := ⟨hmaps.owned, fun k hk hk' => ?_, fun p hp g hg => ?_⟩
    list := hmaps.list
    le := hmaps.pos
    taken := hpos.2
    room := hroom
    keep := fun g hg => ⟨hg.low, hg.aligned, map_keep hg.bound⟩
    tables := hmaps.takes
    outside := fun b hspare _ => hmaps.frame b fun q t hq hlq ht hb => ?_ }
  · rw [hmaps.list]
    exact h.low k (hmaps.pos.trans hk) hk'
  · rcases PageMap.map_eq_some hg with hg | ⟨rfl, rfl, hnone⟩
    · exact h.own p hp g hg
    · exact (hwindow hp hnone).1
  · rcases hmaps.takes hq hlq ht with hold | ⟨k, hk, hk', rfl⟩
    · exact hspare (by decide) (.inl ⟨q, t, hq, hlq, hold, hb⟩)
    · exact hspare (by decide) (.inr ⟨k, hk, hk'.trans_le hroom, hb⟩)

/-- **Mapping a frame that was taken** at its own address. -/
theorem Windowed.mapWindow (h : Windowed P count s M) (hlow : f < 2 ^ 32) (haligned : f % 4096 = 0)
    (hunused : Unused P P.kernelPml4 count s M windowPages f) (hroom : s.stackPosition + 3 ≤ count) :
    ∃ s' M', kernelMapMmio P s (mmioAddress f) f = s' ∧ Drives P count 3 ∅ s s' M M' ∧ Held M' f := by
  have haddress := mmioAddress_eq hlow haligned
  have hmem := windowPage_mem hlow
  have hpage : mmioAddress f / 4096 = windowPage f := by omega
  have hpos := (mapValue_pool P s P.kernelPml4 (mmioAddress f) f (0x10 ||| 0x8 ||| 0x3)).2.trans hroom
  have hmap := h.mapMmio (haddress ▸ canonical_window hmem) haligned (hlow.trans (by decide)) hpos
    fun _ _ => ⟨⟨hlow, hpage⟩, hunused⟩
  rw [hpage] at hmap
  refine ⟨_, _, rfl, hmap, hlow, haligned, ?_⟩
  -- the page was not bound, since it would be bound to this frame
  have hnone : M (windowPage f) = none := by
    by_contra hsome
    obtain ⟨g, hg⟩ := Option.ne_none_iff_exists'.mp hsome
    have hgheld := h.held hmem hg
    have hpages := (h.own _ hmem g hg).2
    obtain rfl := windowPage_inj haligned hgheld.aligned hpages
    exact hunused.unbound _ hmem hg
  have hmapped : ¬ (M (windowPage f)).isSome = true := by
    rw [hnone]
    decide
  rw [PageMap.map, if_neg hmapped, Function.update_self]

/-- **Taking a frame and mapping it.** -/
theorem Windowed.take (h : Windowed P count s M) (hroom : s.stackPosition + 4 ≤ count)
    (hf : s.memList s.stackPosition = f) :
    ∃ s₁ s' M', kernelAllocateFrame s = (f, s₁) ∧ kernelMapMmio P s₁ (mmioAddress f) f = s' ∧
      Drives P count 4 ∅ s s' M M' ∧ s.stackPosition < s'.stackPosition ∧ Held M' f := by
  obtain ⟨s₁, hallocate, htaken, hpos, hunused, hlow, haligned⟩ := h.allocate (by omega)
  rw [hf] at hallocate hunused hlow haligned
  obtain ⟨s', M', hmap, hmapped, hheld⟩ := htaken.windowed.mapWindow hlow haligned hunused (by omega)
  have hle := hmapped.le
  exact ⟨s₁, s', M', hallocate, hmap, (htaken.trans hmapped).mono le_rfl (by simp), by omega, hheld⟩

end Cutesugar.Modules
