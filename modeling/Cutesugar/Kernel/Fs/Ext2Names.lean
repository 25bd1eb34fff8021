import Cutesugar.Kernel.Fs.Ext2Children
import Cutesugar.Kernel.Object.PathSoundness

/-!
# Names of imported objects

The names on the disk have lengths, and the names in memory end with a NUL. Directories copy 32
bytes and files as many as the name has, and neither writes a NUL behind the name.

- `ComesTo`: the entries that the loops come to by the sizes of the entries before.
- `nameByte`: where each byte of a name in memory is from.
- `names_survive_iff`: entries of which an object is made with the name as it is on the disk.
-/

namespace Cutesugar.Kernel.Fs

open Lib Libc

/-! ## The copy -/

/-- Byte `j` of the name of an object: the copy takes it from the buffer, or it is what the block
held. -/
def nameByte (s : Ext2State) (b : Built) (j : ℕ) : UInt8 :=
  if j < (if b.isDirectory then 32 else field b.entry 6 1) then b.entry.getD (8 + j) 0
  else (s.kernel.objects b.object).header.name.toList.getD j 0

/-- The bytes of the name and a NUL behind them are where the copy takes the name from. -/
def Copied (s : Ext2State) (b : Built) (name : List UInt8) : Prop :=
  (∀ j < name.length, nameByte s b j = name.getD j 0) ∧ nameByte s b name.length = 0

/-- The name field of an object starts with the name and a NUL. -/
def NameKept (s : Ext2State) (o : ℕ) (name : List UInt8) : Prop :=
  (s.kernel.objects o).header.name.toList.take (name.length + 1) = name ++ [0]

/-- The name resolves to a child with this name. -/
def FoundUnder (k : State) (d : ℕ) (children : List ℕ) (name : List UInt8) : Prop :=
  ∃ o ∈ children, objectName k o = name ∧ Resolves k d name o

/-- The object is made of the entry at a place of the directory. -/
def Built.At (b : Built) (root i offset : ℕ) : Prop :=
  b.root = root ∧ b.block = i ∧ b.offset = offset

/-- **The name survives**: an object is made of the entry, the name in memory is that on the disk,
and the name resolves to a child with this name. -/
def Survives (F : FileSystem) (s' : Ext2State) (root : ℕ) (children : List ℕ)
    (v : List (Task × Ext2State)) (i offset : ℕ) (name : List UInt8) : Prop :=
  (∃ b ∈ builtIn F v, b.At root i offset) ∧ ∀ b ∈ builtIn F v, b.At root i offset →
    NameKept s' b.object name ∧ FoundUnder s'.kernel root children name

/-! ## What the loop comes to -/

/-- The loop over the entries of a sector goes from one place of the buffer to another by the sizes
of the entries. -/
inductive LeadsTo (start : List UInt8) : List UInt8 → Prop where
  | first : LeadsTo start start
  | behind {bytes : List UInt8} (h : LeadsTo start bytes) (hlong : 1536 < bytes.length)
      (hmore : field bytes 4 2 ≠ 0 ∨ isDots bytes = .ok true) :
      LeadsTo start (bytes.drop (field bytes 4 2))

/-- **An entry that is come to**: the sizes lead to it from the start of its sector, in the buffer
that the sector is copied to, and it has a name of its own there. -/
def ComesTo (F : FileSystem) (held : ℕ → ℕ → UInt8) (root : ℕ) (v : List (Task × Ext2State))
    (i offset : ℕ) : Prop :=
  ∃ f pointer count s₁ location bytes, f.root = root ∧ (.sector f i pointer count, s₁) ∈ v ∧
    sectorOf F pointer count = .ok location ∧
    LeadsTo (sectorBuffer F (held s₁.kernel.mallocs) location) bytes ∧ 1536 < bytes.length ∧
    offsetOf F count bytes = offset ∧ isDots bytes ≠ .ok true ∧ field bytes 8 1 ≠ 0

variable {F : FileSystem} {fs fuel rounds depth root index j n i offset : ℕ} {s s' : Ext2State}
  {b : Built} {name bytes : List UInt8} {v : List (Task × Ext2State)} {held : ℕ → ℕ → UInt8}
  {t : Task} {new : List Task}

theorem getD_copy (old : List UInt8) (hlen : 8 + n ≤ bytes.length) (hj : j < 64) :
    (((bytes.drop 8).take n).take 64 ++ old.drop n).getD j 0 =
      if j < n then bytes.getD (8 + j) 0 else old.getD j 0 := by
  have htake : (((bytes.drop 8).take n).take 64).length = min 64 n := by
    rw [List.length_take, List.length_take, List.length_drop]
    omega
  split_ifs with hn
  · rw [List.getD_append _ _ _ _ (by omega)]
    simp [List.getD_eq_getElem?_getD, hj, hn]
  · have hadd : n + (j - min 64 n) = j := by omega
    rw [List.getD_append_right _ _ _ _ (by omega), htake]
    simp [List.getD_eq_getElem?_getD, hadd]

/-- **The name of an imported object**, byte by byte. -/
theorem name_of_made (h : b.Made fs s s') (hj : j < 64) :
    (s'.kernel.objects b.object).header.name.toList.getD j 0 = nameByte s b j := by
  unfold Built.Made at h
  split_ifs at h with hdir
  · obtain ⟨name, hname, hheader⟩ := h
    unfold readName at hname
    split_ifs at hname with hlen
    obtain rfl := Except.ok.inj hname
    rw [hheader, nameByte, if_pos hdir]
    have hcopy := getD_copy (s.kernel.objects b.object).header.name.toList
      (show 8 + 32 ≤ b.entry.length by omega) hj
    rw [List.take_take] at hcopy
    exact hcopy
  · obtain ⟨name, hname, hheader, -⟩ := h
    unfold readBytes at hname
    split_ifs at hname with hlen
    obtain rfl := Except.ok.inj hname
    have htake : ((b.entry.drop 8).take (Lib.field b.entry 6 1)).length = Lib.field b.entry 6 1 := by
      rw [List.length_take, List.length_drop]
      omega
    rw [hheader, nameByte, if_neg hdir]
    have hcopy := getD_copy (s.kernel.objects b.object).header.name.toList hlen hj
    rw [← hcopy]
    exact congrArg (fun k => (((b.entry.drop 8).take (Lib.field b.entry 6 1)).take 64 ++
      (s.kernel.objects b.object).header.name.toList.drop k).getD j 0) htake

theorem take_eq_iff {field : List UInt8} (hlen : name.length < field.length) :
    field.take (name.length + 1) = name ++ [0] ↔
      (∀ j < name.length, field.getD j 0 = name.getD j 0) ∧ field.getD name.length 0 = 0 := by
  have hget {j : ℕ} (hj : j < field.length) : field.getD j 0 = field[j] := by
    simp [List.getD_eq_getElem?_getD, hj]
  constructor
  · intro h
    have hall (j : ℕ) : (field.take (name.length + 1)).getD j 0 = (name ++ [0]).getD j 0 := by
      rw [h]
    refine ⟨fun j hj => ?_, ?_⟩
    · have hj' := hall j
      rw [List.getD_append _ _ _ _ hj] at hj'
      rw [← hj']
      have hj'' : j < name.length + 1 := by omega
      simp [List.getD_eq_getElem?_getD, hj'']
    · have hend := hall name.length
      rw [List.getD_append_right _ _ _ _ le_rfl] at hend
      simpa [List.getD_eq_getElem?_getD, List.getElem?_take] using hend
  · rintro ⟨hname, hnul⟩
    apply List.ext_getElem
    · simp
      omega
    · intro j hj hj'
      rw [List.length_append, List.length_singleton] at hj'
      rw [List.getElem_take, ← hget (by omega)]
      rcases Nat.lt_or_ge j name.length with hlt | hge
      · rw [hname j hlt, List.getElem_append_left hlt]
        simp [List.getD_eq_getElem?_getD, hlt]
      · obtain rfl : j = name.length := by omega
        rw [hnul, List.getElem_append_right le_rfl]
        simp

/-- A name of at most 31 bytes is kept exactly if it and a NUL are where it is copied from. -/
theorem nameKept_iff (h : b.Made fs s s') (hlen : name.length ≤ 31) :
    NameKept s' b.object name ↔ Copied s b name := by
  have hfield : (s'.kernel.objects b.object).header.name.toList.length = 64 :=
    List.Vector.toList_length _
  unfold NameKept Copied
  rw [take_eq_iff (by omega), name_of_made h (by omega)]
  refine and_congr_left fun _ => forall₂_congr fun j hj => ?_
  rw [name_of_made h (by omega)]

/-! ## Resolving the name -/

theorem objectName_of_kept {o : ℕ} (h : NameKept s o name) (hnul : 0 ∉ name) :
    objectName s.kernel o = name := by
  unfold objectName
  rw [← List.take_append_drop (name.length + 1) (s.kernel.objects o).header.name.toList, h,
    List.append_assoc]
  exact cString_append hnul

/-- A child with a name is found under this name, or another one with the same name. -/
theorem foundUnder_of_child {k : State} {d o : ℕ} {children : List ℕ}
    (hlist : DirsExact k [d] fun _ => children) (hd : d ≠ 0) (hnonnull : ∀ o ∈ children, o ≠ 0)
    (ho : o ∈ children) (hname : objectName k o = name) (hcomp : IsComponent name) :
    FoundUnder k d children name := by
  obtain ⟨entries, hchain, hentries, hitems⟩ := hlist d (List.mem_singleton_self _)
  replace hitems : entries.map (fun t => (k.lists t).item) = children := hitems
  have hitem : ∀ t ∈ entries, (k.lists t).item ∈ children := fun t ht =>
    hitems ▸ List.mem_map_of_mem ht
  have hshort : name.length < 32 := Nat.lt_succ_of_le hcomp.length
  have hlen : (pad 32 name).length = 32 := length_pad hshort.le
  have hpad : cString (pad 32 name) = name := cString_pad hshort hcomp.nul
  -- the node of the child
  rw [← hitems] at ho
  obtain ⟨t, ht, rfl⟩ := List.mem_map.mp ho
  obtain ⟨before, behind, hsplit⟩ := List.append_of_mem ht
  rw [hsplit] at hchain
  obtain ⟨t', hbefore, rfl, -⟩ := chain_append.mp hchain
  rw [← hsplit] at hchain
  have hbefore' : ∀ x ∈ before, x ∈ entries := fun x hx => hsplit ▸ List.mem_append_left _ hx
  obtain ⟨found, hfound, hfound0⟩ := findChild_finds hlen hbefore
    (fun x hx => ⟨hentries x (hbefore' x hx), hnonnull _ (hitem x (hbefore' x hx))⟩)
    (hentries t' ht) (hnonnull _ (hitem t' ht))
    (by rw [hpad]; exact (childName_eq_iff hshort).mpr hname) (Nat.lt_succ_self _)
  -- the first node with the name
  obtain ⟨⟨nodes, hnodes, hothers⟩, hspec⟩ := findChild_spec hlen hfound
  obtain ⟨hitem0, hchild⟩ := hspec hfound0
  have hmem : found ∈ entries :=
    hchain.mem_list hentries hnodes (fun y hy => (hothers y hy).1) hfound0
  refine ⟨(k.lists found).item, hitem found hmem,
    (childName_eq_iff hshort).mp (hchild.trans hpad), nodes.length + 1, 1,
    fun fuel depth hfuel hdepth rest => ?_⟩
  obtain ⟨depth, rfl⟩ : ∃ k, depth = k + 1 := ⟨depth - 1, by omega⟩
  have hfind : findChild k (pad 32 name) fuel (k.objects d).headerList = .ok found :=
    findChild_of_chain hlen hnodes hothers hfound0 hitem0 hchild (by omega)
  have hcomps : ∀ x ∈ [name], IsComponent x := fun x hx => List.mem_singleton.mp hx ▸ hcomp
  have hresolve : resolveObjectName fuel k (depth + 1) d (some (joinPath [name] ++ 0 :: rest)) = _ :=
    resolveObjectName_cons hcomps hd rest
  have hfits : Fits [name] := Nat.zero_le _
  rw [if_pos hfits, hfind] at hresolve
  simp only [bind, Except.bind, if_neg hfound0] at hresolve
  rw [if_neg fun hand => hand.1 rfl] at hresolve
  exact hresolve

/-! ## Entries of a directory -/

theorem parseEntries_formed {offset : ℕ} {entries : List (ℕ × List UInt8)}
    (h : parseEntries n offset bytes = some entries) : ∀ e ∈ entries, EntryFormed e.2 := by
  induction n generalizing offset bytes entries with
  | zero =>
    unfold parseEntries at h
    split_ifs at h
    obtain rfl := Option.some.inj h
    simp
  | succ n ih =>
    unfold parseEntries at h
    split_ifs at h with hnil hformed
    · obtain rfl := Option.some.inj h
      simp
    · obtain ⟨behind, hbehind, heq⟩ := Option.bind_eq_some_iff.mp h
      obtain rfl := Option.some.inj heq
      exact List.forall_mem_cons.mpr ⟨hformed, ih hbehind⟩

/-- The name of a live entry is a component of a path. -/
theorem isComponent_nameOf {inode : List UInt8} {i : ℕ} {entries : List (ℕ × List UInt8)}
    (hentries : blockEntries F inode i = some entries) {e : ℕ × List UInt8} (he : e ∈ entries)
    (hlive : Live e.2) (hlen : field e.2 6 1 ≤ 31) : IsComponent (nameOf e.2) := by
  have hformed : EntryFormed e.2 := by
    unfold blockEntries at hentries
    split_ifs at hentries
    · obtain rfl := Option.some.inj hentries
      exact absurd he List.not_mem_nil
    · exact parseEntries_formed hentries e he
  obtain ⟨hne, hnul, hslash⟩ := hformed.2.2.2 hlive.1
  refine ⟨hne, ?_, hnul, hslash, hlive.2.1⟩
  rw [nameOf, List.length_take]
  omega

/-! ## From the sectors to the entries -/

/-- The loops have come to a task from the start of its sector. -/
def Task.FromSector (F : FileSystem) (held : ℕ → ℕ → UInt8) (v : List (Task × Ext2State)) :
    Task → Prop
  | .enter _ _ _ => True
  | .block _ _ _ => True
  | .sector _ _ _ count => count < 128
  | .entry f i count limit index bytes => Aligned F count limit index bytes ∧
      ∃ pointer s₁ location, (.sector f i pointer count, s₁) ∈ v ∧
        sectorOf F pointer count = .ok location ∧
        LeadsTo (sectorBuffer F (held s₁.kernel.mallocs) location) bytes

/-- A block has at most 128 sectors of 512 bytes. -/
theorem sectors_le (hdevice : F.blockDevice.blockSize = 512)
    (hsize : field F.superblock.toList 24 4 ≤ 6) :
    blockSize F / F.blockDevice.blockSize ≤ 128 := by
  have hshift : 1024 <<< (field F.superblock.toList 24 4 % 32) ≤ 1024 * 2 ^ 6 := by
    rw [Nat.shiftLeft_eq]
    exact Nat.mul_le_mul_left _ (Nat.pow_le_pow_right (by decide) ((Nat.mod_le ..).trans hsize))
  rw [hdevice, blockSize]
  have hmod := Nat.mod_le (1024 <<< (field F.superblock.toList 24 4 % 32)) (2 ^ 32)
  omega

/-- A step at an entry goes on to the entry behind, after the directory that it may make. -/
theorem entry_new {f : Frame} {count : ℕ} {limit index : ℤ} (hlt : index < limit)
    (hstep : Task.step F fs fuel s (.entry f i count limit index bytes) = .ok (new, s')) :
    ∃ first, new = first ++ entryBehind f i count limit index bytes ∧
      ∀ x ∈ first, ∃ path root index, x = .enter path root index := by
  rw [Task.step, if_pos hlt] at hstep
  obtain ⟨kind, hkind, hstep⟩ := Libc.bind_eq_ok.mp hstep
  obtain ⟨size, hsize, hstep⟩ := Libc.bind_eq_ok.mp hstep
  obtain ⟨-, rfl⟩ := readField_eq_ok.mp hsize
  obtain ⟨-, hspec⟩ := kindOf_spec hkind
  cases kind with
  | blank =>
    obtain ⟨rfl, rfl⟩ := Prod.mk.inj (Except.ok.inj hstep)
    exact ⟨[], more_eq_entryBehind (by simp [hspec.1]), by simp⟩
  | dots =>
    have hdots : isDots bytes = .ok true := hspec
    obtain ⟨rfl, rfl⟩ := Prod.mk.inj (Except.ok.inj hstep)
    exact ⟨[], (if_neg fun h => h.2 hdots).symm, by simp⟩
  | directory inode name =>
    obtain ⟨added, -, hstep⟩ := Libc.bind_eq_ok.mp hstep
    obtain ⟨rfl, rfl⟩ := Prod.mk.inj (Except.ok.inj hstep)
    refine ⟨[.enter f.path added.1 inode], ?_, ?_⟩
    · rw [List.singleton_append, ← more_eq_entryBehind (by simp [hspec.1])]
    · exact fun x hx => ⟨_, _, _, List.mem_singleton.mp hx⟩
  | file inode name =>
    obtain ⟨s₁, -, hstep⟩ := Libc.bind_eq_ok.mp hstep
    obtain ⟨rfl, rfl⟩ := Prod.mk.inj (Except.ok.inj hstep)
    exact ⟨[], more_eq_entryBehind (by simp [hspec.1]), by simp⟩

/-- **Step lemma**: what a task consists of is come to from the start of its sector. -/
theorem Task.FromSector.step (hdevice : F.blockDevice.blockSize = 512)
    (hsize : field F.superblock.toList 24 4 ≤ 6) (hvisit : (t, s) ∈ v)
    (ht : t.FromSector F held v) (hheld : s.held = held)
    (hstep : Task.step F fs fuel s t = .ok (new, s')) : ∀ x ∈ new, x.FromSector F held v := by
  cases t with
  | enter path root index =>
    intro x hx
    obtain ⟨⟨object, s₁⟩, -, hstep⟩ := Libc.bind_eq_ok.mp hstep
    cases object with
    | none =>
      obtain ⟨rfl, rfl⟩ := Prod.mk.inj (Except.ok.inj hstep)
      exact absurd hx List.not_mem_nil
    | some inode =>
      obtain ⟨type, -, hstep⟩ := Libc.bind_eq_ok.mp hstep
      split_ifs at hstep
      · obtain ⟨rfl, rfl⟩ := Prod.mk.inj (Except.ok.inj hstep)
        exact absurd hx List.not_mem_nil
      · obtain ⟨rfl, rfl⟩ := Prod.mk.inj (Except.ok.inj hstep)
        obtain ⟨i, -, rfl⟩ := List.mem_map.mp hx
        exact trivial
  | block f inode i =>
    intro x hx
    obtain ⟨pointer, -, hstep⟩ := Libc.bind_eq_ok.mp hstep
    split_ifs at hstep
    · obtain ⟨rfl, rfl⟩ := Prod.mk.inj (Except.ok.inj hstep)
      exact absurd hx List.not_mem_nil
    · obtain ⟨sectors, hsectors, hstep⟩ := Libc.bind_eq_ok.mp hstep
      obtain ⟨rfl, rfl⟩ := Prod.mk.inj (Except.ok.inj hstep)
      obtain ⟨count, hcount, rfl⟩ := List.mem_map.mp hx
      unfold divide at hsectors
      split_ifs at hsectors
      obtain rfl := Except.ok.inj hsectors
      exact (List.mem_range.mp hcount).trans_le (sectors_le hdevice hsize)
  | sector f i pointer count =>
    intro x hx
    obtain ⟨location, hlocation, hstep⟩ := Libc.bind_eq_ok.mp hstep
    obtain ⟨rfl, rfl⟩ := Prod.mk.inj (Except.ok.inj hstep)
    rw [List.mem_singleton.mp hx]
    -- the entries begin here, at the bytes of the sector that was just read
    exact ⟨Aligned.start hdevice ht location _, pointer, s, location, hvisit, hlocation,
      hheld ▸ .first⟩
  | entry f i count limit index bytes =>
    intro x hx
    obtain ⟨haligned, pointer, s₁, location, hsector, hlocation, hleads⟩ := ht
    by_cases hlt : index < limit
    · -- what an entry starts is an inode, what follows it is the entry behind it
      obtain ⟨first, rfl, hfirst⟩ := entry_new hlt hstep
      rcases List.mem_append.mp hx with hx | hx
      · obtain ⟨path, root', index', rfl⟩ := hfirst x hx
        exact trivial
      · unfold entryBehind at hx
        split_ifs at hx with hend
        · exact absurd hx List.not_mem_nil
        · rw [List.mem_singleton.mp hx]
          exact ⟨haligned.behind hlt _ (field_lt ..), pointer, s₁, location, hsector, hlocation,
            hleads.behind (haligned.lt_iff.mp hlt) (or_iff_not_and_not.mpr fun h =>
              hend ⟨not_not.mp h.1, h.2⟩)⟩
    · rw [Task.step, if_neg hlt] at hstep
      obtain ⟨rfl, rfl⟩ := Prod.mk.inj (Except.ok.inj hstep)
      exact absurd hx List.not_mem_nil

/-- **Run lemma**: every entry that is visited is come to from the start of its sector. -/
theorem fromSector_of_does {c : Agenda Task Ext2State} (hdevice : F.blockDevice.blockSize = 512)
    (hsize : field F.superblock.toList 24 4 ≤ 6)
    (hdoes : Does (Task.step F fs fuel) ([.enter [] root index], s) v c) :
    ∀ p ∈ v, p.1.FromSector F s.held v := by
  have hrun := hdoes.invariant (I := fun t => t.FromSector F s.held v)
    (J := fun s₁ => s₁.held = s.held)
    (fun t s₁ new s₂ hvisit ht hheld hstep =>
      ⟨ht.step hdevice hsize hvisit hheld hstep, (Task.step_keeps hstep).held.trans hheld⟩)
    (fun t ht => by rw [List.mem_singleton.mp ht]; exact trivial) rfl
  exact fun p hp => (hrun.2.2 p hp).1

/-- What the sizes lead to is visited. -/
theorem visit_of_leadsTo {f : Frame} {pointer count location : ℕ} {s₁ : Ext2State}
    (hdevice : F.blockDevice.blockSize = 512) (hsize : field F.superblock.toList 24 4 ≤ 6)
    (hdoes : Does (Task.step F fs fuel) ([.enter [] root index], s) v ([], s'))
    (hsector : (.sector f i pointer count, s₁) ∈ v)
    (hlocation : sectorOf F pointer count = .ok location)
    (h : LeadsTo (sectorBuffer F (s.held s₁.kernel.mallocs) location) bytes) :
    ∃ limit index s₂, (.entry f i count limit index bytes, s₂) ∈ v := by
  induction h with
  | first =>
    obtain ⟨new, s₂, hstep, hnew⟩ := hdoes.visits_new hsector
    have hheld : s₁.held = s.held := by
      obtain ⟨u, x, rest, new', s₃, hbefore, -⟩ := hdoes.of_mem hsector
      exact (does_keeps hbefore).held
    simp only [Task.step, hlocation, bind, Except.bind, hheld] at hstep
    obtain ⟨rfl, rfl⟩ := Prod.mk.inj (Except.ok.inj hstep)
    obtain ⟨s₃, hvisit⟩ := hnew _ (List.mem_singleton_self _)
    exact ⟨_, _, s₃, hvisit⟩
  | behind h hlong hmore ih =>
    obtain ⟨limit, index, s₂, hvisit⟩ := ih
    obtain ⟨haligned, -⟩ := fromSector_of_does hdevice hsize hdoes _ hvisit
    obtain ⟨new, s₃, hstep, hnew⟩ := hdoes.visits_new hvisit
    obtain ⟨first, rfl, -⟩ := entry_new (haligned.lt_iff.mpr hlong) hstep
    have hbehind : entryBehind f i count limit index _ = [_] :=
      if_neg fun h => hmore.elim (fun hsize => hsize h.1) h.2
    obtain ⟨s₄, hnext⟩ := hnew _ (List.mem_append_right _ (hbehind ▸ List.mem_singleton_self _))
    exact ⟨limit, _, s₄, hnext⟩

/-- An object is made of an entry with a name of its own. -/
theorem builtAt_cases (h : builtAt F (t, s) = some b) :
    ∃ f i count limit index bytes, t = .entry f i count limit index bytes ∧ index < limit ∧
      (isDots bytes = .ok false ∧ field bytes 8 1 ≠ 0) ∧
      b.At f.root i (offsetOf F count bytes) := by
  cases t with
  | entry f i count limit index bytes =>
    simp only [builtAt] at h
    split at h
    · split at h
      · obtain rfl := Option.some.inj h
        obtain ⟨-, hdots, hfirst, -⟩ := kindOf_spec ‹_›
        exact ⟨f, i, count, limit, index, bytes, rfl, ‹_›, ⟨hdots, hfirst⟩, rfl, rfl, rfl⟩
      · obtain rfl := Option.some.inj h
        obtain ⟨-, hdots, hfirst, -⟩ := kindOf_spec ‹_›
        exact ⟨f, i, count, limit, index, bytes, rfl, ‹_›, ⟨hdots, hfirst⟩, rfl, rfl, rfl⟩
      · exact absurd h (by simp)
    · exact absurd h (by simp)
  | enter path root index => exact absurd h (by simp [builtAt])
  | block f inode i => exact absurd h (by simp [builtAt])
  | sector f i pointer count => exact absurd h (by simp [builtAt])

/-- A step at an entry with a name of its own makes an object of it. -/
theorem builtAt_of_named {f : Frame} {count : ℕ} {limit index : ℤ} (hlt : index < limit)
    (hstep : Task.step F fs fuel s (.entry f i count limit index bytes) = .ok (new, s'))
    (hdots : isDots bytes ≠ .ok true) (hfirst : field bytes 8 1 ≠ 0) :
    ∃ b, builtAt F (.entry f i count limit index bytes, s) = some b ∧
      b.At f.root i (offsetOf F count bytes) := by
  rw [Task.step, if_pos hlt] at hstep
  obtain ⟨kind, hkind, -⟩ := Libc.bind_eq_ok.mp hstep
  obtain ⟨-, hspec⟩ := kindOf_spec hkind
  cases kind with
  | blank => exact absurd hspec.2 hfirst
  | dots => exact absurd hspec hdots
  | directory inode name =>
    exact ⟨_, by simp only [builtAt, hkind, if_pos hlt]; rfl, rfl, rfl, rfl⟩
  | file inode name => exact ⟨_, by simp only [builtAt, hkind, if_pos hlt]; rfl, rfl, rfl, rfl⟩

/-- **Objects are made of the entries that are come to**, and of no others. -/
theorem built_iff_comesTo (hdevice : F.blockDevice.blockSize = 512)
    (hsize : field F.superblock.toList 24 4 ≤ 6)
    (hdoes : Does (Task.step F fs fuel) ([.enter [] root index], s) v ([], s')) (d i offset : ℕ) :
    (∃ b ∈ builtIn F v, b.At d i offset) ↔ ComesTo F s.held d v i offset := by
  constructor
  · rintro ⟨b, hb, rfl, rfl, rfl⟩
    obtain ⟨⟨t, s₂⟩, hvisit, hat⟩ := List.mem_filterMap.mp hb
    obtain ⟨f, i, count, limit, index, bytes, rfl, hlt, ⟨hdots, hfirst⟩, hroot, hblock, hoffset⟩ :=
      builtAt_cases hat
    obtain ⟨haligned, pointer, s₁, location, hsector, hlocation, hleads⟩ :=
      fromSector_of_does hdevice hsize hdoes _ hvisit
    rw [hroot, hblock, hoffset]
    exact ⟨f, pointer, count, s₁, location, bytes, rfl, hsector, hlocation, hleads,
      haligned.lt_iff.mp hlt, rfl, by simp [hdots], hfirst⟩
  · rintro ⟨f, pointer, count, s₁, location, bytes, rfl, hsector, hlocation, hleads, hlong, rfl,
      hdots, hfirst⟩
    obtain ⟨limit, index, s₂, hvisit⟩ :=
      visit_of_leadsTo hdevice hsize hdoes hsector hlocation hleads
    obtain ⟨haligned, -⟩ := fromSector_of_does hdevice hsize hdoes _ hvisit
    obtain ⟨new, s₃, hstep, -⟩ := hdoes.visits_new hvisit
    obtain ⟨b, hat, hplace⟩ := builtAt_of_named (haligned.lt_iff.mpr hlong) hstep hdots hfirst
    exact ⟨b, List.mem_filterMap.mpr ⟨_, hvisit, hat⟩, hplace⟩

/-! ## Names that survive -/

/-- The list of the directory after a run. -/
theorem children_of_run {dirs : List ℕ} {added : ℕ → List ℕ}
    (hclean : CleanDirs s.kernel dirs added) (hdirs : root ∈ dirs)
    (hdoes : Does (Task.step F fs fuel) ([.enter [] root index], s) v ([], s')) :
    DirsExact s'.kernel [root] fun _ => added root ++ childrenOf root (builtIn F v) := by
  have hparent : ∀ t ∈ [Task.enter [] root index], t.parent ∈ dirs := by
    intro t ht
    rw [List.mem_singleton.mp ht]
    exact hdirs
  obtain ⟨dirs', added', hclean', hsub, -, hadded⟩ := CleanDirs.run hdoes hclean hparent
  obtain ⟨entries', hbuilt'⟩ := hclean'.built
  intro d hd
  obtain rfl := List.mem_singleton.mp hd
  have hlist := hbuilt'.exact hclean'.blocks d (hsub hdirs)
  rwa [hadded d hdirs] at hlist

theorem mem_children (b : Built) : b.object ∈ b.children := by
  unfold Built.children
  split_ifs
  · exact List.mem_cons_self ..
  · exact List.mem_cons_self ..

/-- An object with a name is found under it. -/
theorem found_of_kept {dirs : List ℕ} {added : ℕ → List ℕ}
    (hclean : CleanDirs s.kernel dirs added) (hdirs : root ∈ dirs) (hroot : root ≠ 0)
    (hold : ∀ o ∈ added root, o ≠ 0)
    (hdoes : Does (Task.step F fs fuel) ([.enter [] root index], s) v ([], s'))
    (hbuilt : b ∈ builtIn F v) (hb : b.root = root) (hcomp : IsComponent name)
    (hkept : NameKept s' b.object name) :
    FoundUnder s'.kernel root (added root ++ childrenOf root (builtIn F v)) name := by
  refine foundUnder_of_child (children_of_run hclean hdirs hdoes) hroot (fun o ho => ?_)
    (o := b.object) ?_ (objectName_of_kept hkept hcomp.nul) hcomp
  · rcases List.mem_append.mp ho with ho | ho
    · exact hold o ho
    · -- a new child is a block
      obtain ⟨c, hc, ho⟩ := List.mem_flatMap.mp ho
      obtain ⟨-, j, -, -, hblock⟩ := builtIn_made hclean.blocks hdoes (List.mem_filter.mp hc).1
      have hsame : o = c.object := by
        unfold Built.children at ho
        split_ifs at ho
        · simpa using ho
        · simpa using ho
      rw [hsame, hblock]
      exact hclean.blocks.nonnull j
  · exact List.mem_append_right _ (List.mem_flatMap.mpr
      ⟨b, List.mem_filter.mpr ⟨hbuilt, decide_eq_true hb⟩, mem_children b⟩)

/-- **Names that survive**: in every import that returns, with lists that are as they should be,
the name of a live entry of at most 31 bytes survives exactly if the sizes of the entries lead to
the entry from the start of its sector, and the bytes of the name and a NUL are where the copy takes
the name from: for a directory all of them in the buffer, for a file the NUL in what the block
held. -/
theorem names_survive_iff {dirs : List ℕ} {added : ℕ → List ℕ}
    (hdevice : F.blockDevice.blockSize = 512) (hsize : field F.superblock.toList 24 4 ≤ 6)
    (hclean : CleanDirs s.kernel dirs added) (hdirs : root ∈ dirs) (hroot : root ≠ 0)
    (hold : ∀ o ∈ added root, o ≠ 0)
    (hrun : createDirectoryEntry F fs fuel rounds depth s root index = .ok s') :
    ∃ v, Does (Task.step F fs fuel) ([.enter [] root index], s) v ([], s') ∧
      ∀ i entries, blockEntries F (diskInode F index) i = some entries →
        ∀ offset e, (offset, e) ∈ entries → Live e → field e 6 1 ≤ 31 →
          (Survives F s' root (added root ++ childrenOf root (builtIn F v)) v i offset (nameOf e) ↔
            ComesTo F s.held root v i offset ∧
              ∀ b ∈ builtIn F v, b.At root i offset → Copied s b (nameOf e)) := by
  obtain ⟨v, hdoes⟩ := does_of_ok hrun
  refine ⟨v, hdoes, fun i entries hentries offset e he hlive hlen => ?_⟩
  have hcomp : IsComponent (nameOf e) := isComponent_nameOf hentries he hlive hlen
  unfold Survives
  rw [built_iff_comesTo hdevice hsize hdoes]
  refine and_congr_right fun _ => forall₃_congr fun b hbuilt hat => ?_
  obtain ⟨hmade, -⟩ := builtIn_made hclean.blocks hdoes hbuilt
  rw [← nameKept_iff hmade hcomp.length]
  exact and_iff_left_of_imp
    (found_of_kept hclean hdirs hroot hold hdoes hbuilt hat.1 hcomp)

/-- The file `a` in a root directory, on a heap whose blocks hold NULs behind the first byte. -/
theorem name_survives_file : ∃ s' v,
    createDirectoryEntry (oneEntry 0x81) 0 8 8 8 emptyRoot 0x1000 2 = .ok s' ∧
      Survives (oneEntry 0x81) s' 0x1000 (childrenOf 0x1000 (builtIn (oneEntry 0x81) v)) v 0 0
        [97] := by
  obtain ⟨met, m', hmet, himportable, hmap⟩ := oneFile_met 0 (.inl rfl)
  obtain ⟨entries, hold⟩ := emptyRoot_clean.built
  obtain ⟨p, rfl⟩ : ∃ p, met = [p] := by
    have hlen := congrArg List.length hmap
    rw [List.length_map] at hlen
    exact List.length_eq_one_iff.mp hlen
  obtain ⟨hplace, hlength, hbyte, hobject⟩ : p.place = ⟨0, 0, 3⟩ ∧ field p.entry 6 1 = 1 ∧
      p.entry.getD 8 0 = 97 ∧ p.object = 5 := by
    simpa using hmap
  have hruns : faultOf (createDirectoryEntry (oneEntry 0x81) 0 8 8 8 emptyRoot 0x1000 2) = none := by
    decide +kernel
  obtain ⟨s', hrun⟩ : ∃ s', createDirectoryEntry (oneEntry 0x81) 0 8 8 8 emptyRoot 0x1000 2 =
      .ok s' := by
    revert hruns
    cases createDirectoryEntry (oneEntry 0x81) 0 8 8 8 emptyRoot 0x1000 2 with
    | error e => exact fun h => absurd h (by simp [faultOf])
    | ok s' => exact fun _ => ⟨s', rfl⟩
  have hF := oneEntry_wellFormed 0x81 (.inr rfl)
  have hsize : field (oneEntry 0x81).superblock.toList 24 4 ≤ 6 := by decide +kernel
  obtain ⟨v, hdoes, hiff⟩ := names_survive_iff hF.device hsize emptyRoot_clean
    (List.mem_singleton_self _) (by decide) (by simp) hrun
  -- the run is the one that makes the file
  have hbound : ∀ q ∈ [p], q.object + 1 ≤ 8 := by
    intro q hq
    rw [List.mem_singleton.mp hq, hobject]
    decide
  obtain ⟨v', s'', hdoes', hbuilt, -⟩ := run_of_importable hF (oneEntry_reads 0x81 (.inr rfl)) .root
    (by decide) emptyRoot_clean.blocks (by decide : 0x1000 ≠ 0) hold hmet himportable 0 hbound
  obtain ⟨rfl, rfl⟩ := hdoes.unique hdoes'
  have hmem : p.built 0x1000 emptyRoot.kernel.blocks ∈ builtIn (oneEntry 0x81) v := by
    rw [hbuilt]
    exact List.mem_map_of_mem (List.mem_singleton_self p)
  have hentry : (blockEntries (oneEntry 0x81) (diskInode (oneEntry 0x81) 2) 0).any (fun es =>
      es.any fun e => e.1 = 0 ∧ Live e.2 ∧ field e.2 6 1 ≤ 31 ∧ nameOf e.2 = [97]) = true := by
    decide +kernel
  obtain ⟨es, hes, hany⟩ := (Option.any_eq_true _ _).mp hentry
  obtain ⟨⟨o, e⟩, he, hfacts⟩ := List.any_eq_true.mp hany
  obtain ⟨rfl, hlive, hlen, hname⟩ := of_decide_eq_true hfacts
  obtain ⟨hblock, hoffset, -⟩ : p.block = 0 ∧ p.offset = 0 ∧ field p.entry 0 4 = 3 := by
    simpa [Met.place] using hplace
  refine ⟨s', v, hrun, ?_⟩
  rw [← hname]
  refine (hiff 0 es hes 0 e he hlive hlen).mpr ⟨(built_iff_comesTo hF.device hsize hdoes ..).mp
    ⟨_, hmem, rfl, hblock, hoffset⟩, fun b hb hat => ?_⟩
  rw [hbuilt] at hb
  obtain rfl := List.mem_singleton.mp hb
  rw [hname]
  refine ⟨fun j hj => ?_, ?_⟩
  · obtain rfl : j = 0 := by simpa using hj
    simpa [nameByte, Met.built, hlength] using hbyte
  · simp only [nameByte, Met.built, hlength]
    rfl

/-- The same kernel on a heap whose blocks hold names of three bytes. -/
def staleRoot : Ext2State :=
  { emptyRoot with
    kernel := { emptyRoot.kernel with
      objects := fun p =>
        if p = 0x1000 then emptyRoot.kernel.objects p
        else ⟨⟨nameField [98, 98, 98] (by decide), 5⟩, 0⟩ } }

/-- The file `a` gets the name `abb`, and `a` is not found. -/
theorem stale_name_follows : WellFormed (oneEntry 0x81) ∧
    (createDirectoryEntry (oneEntry 0x81) 0 8 8 8 staleRoot 0x1000 2).toOption.map (fun s' =>
      ((s'.kernel.objects (s'.kernel.blocks 5)).header.name.toList.take 4,
        (resolveObjectName 8 s'.kernel 8 0x1000 (some [97, 0])).toOption)) =
      some ([97, 98, 98, 0], some 0) :=
  ⟨oneEntry_wellFormed 0x81 (.inr rfl), by decide +kernel⟩

end Cutesugar.Kernel.Fs
