import Cutesugar.Kernel.Arch.Scheduler
import Cutesugar.Kernel.Object.Namespace

/-!
# Lists built on recycled blocks

`malloc` hands out blocks as they are, and the builders of the kernel's lists do not write every
field of a new node: the link of an entry of a header list or of the token dictionary, the link
of the first node of the task list and the header list of a new directory keep what the block
held.

## Structure

- `DirsExact`, `TokensExact`, `TasksExact`: the lists are what was added;
- `BuildCall`: runs of the builders, with what they were asked for;
- `Clean`: the fields that are not written hold zero;
- `listsExact_iff`: the runs after which the lists are what was added.
-/

namespace Cutesugar.Kernel

open Lib

/-! ## Lists -/

/-- The link of the token dictionary. -/
abbrev State.nextToken (s : State) (t : ℕ) : ℕ := (s.tokens t).next

/-- The link of the task list. -/
abbrev State.nextNode (s : State) (t : ℕ) : ℕ := (s.nodes t).next

/-- The header list of every directory is a null-terminated list of the objects added to it. -/
def DirsExact (s : State) (dirs : List ℕ) (added : ℕ → List ℕ) : Prop :=
  ∀ d ∈ dirs, ∃ entries, Chain s.nextEntry (s.objects d).headerList entries 0 ∧
    (∀ t ∈ entries, t ≠ 0) ∧ entries.map (fun t => (s.lists t).item) = added d

/-- The dictionary is a null-terminated list of the entries created. -/
def TokensExact (s : State) (tokens : List ℕ) : Prop := Chain s.nextToken s.tokDict tokens 0

/-- The task list has the nodes created: one alone ends the list, more than one form a ring. -/
def TasksExact (s : State) (tasks : List ℕ) : Prop :=
  (tasks = [] → s.firstTask = 0) ∧
  (tasks ≠ [] → Chain s.nextNode s.firstTask tasks
    (if 2 ≤ tasks.length then s.firstTask else 0))

/-- A block that `malloc` has handed out. -/
def Taken (s : State) (x : ℕ) : Prop := ∃ i < s.mallocs, x = s.blocks i

variable {P : Mmu.Platform} {fuel : ℕ} {s s' : State} {d o x : ℕ} {dirs tokens tasks : List ℕ}
  {added entries : ℕ → List ℕ}

theorem Taken.ne_block (h : Taken s x) (hb : Blocks s) {i : ℕ} (hi : s.mallocs ≤ i) :
    x ≠ s.blocks i := by
  obtain ⟨j, hj, rfl⟩ := h
  exact fun heq => (hj.trans_le hi).ne (hb.injective heq)

theorem Taken.mono (h : Taken s x) (hblocks : s'.blocks = s.blocks)
    (hmallocs : s.mallocs ≤ s'.mallocs) : Taken s' x := by
  obtain ⟨i, hi, rfl⟩ := h
  exact ⟨i, hi.trans_le hmallocs, by rw [hblocks]⟩

theorem Taken.nonnull (h : Taken s x) (hb : Blocks s) : x ≠ 0 := by
  obtain ⟨i, -, rfl⟩ := h
  exact hb.nonnull i

/-- The block that the next call of `malloc` returns is taken afterwards. -/
theorem taken_next {k : ℕ} (hblocks : s'.blocks = s.blocks) (h : s.mallocs + k < s'.mallocs) :
    Taken s' (s.blocks (s.mallocs + k)) :=
  ⟨s.mallocs + k, h, by rw [hblocks]⟩

/-! ## Directories -/

/-- The lists of the directories with their entries: blocks, each in one place of one list. -/
structure DirsBuilt (s : State) (dirs : List ℕ) (added entries : ℕ → List ℕ) : Prop where
  chain : ∀ d ∈ dirs, Chain s.nextEntry (s.objects d).headerList (entries d) 0
  items : ∀ d ∈ dirs, (entries d).map (fun t => (s.lists t).item) = added d
  taken : ∀ d ∈ dirs, ∀ t ∈ entries d, Taken s t
  nodup : ∀ d ∈ dirs, (entries d).Nodup
  apart : ∀ d ∈ dirs, ∀ d' ∈ dirs, ∀ t ∈ entries d, t ∈ entries d' → d = d'
  fresh : ∀ d ∈ dirs, ∀ i, s.mallocs ≤ i → d ≠ s.blocks i

theorem DirsBuilt.exact (h : DirsBuilt s dirs added entries) (hb : Blocks s) :
    DirsExact s dirs added :=
  fun d hd => ⟨entries d, h.chain d hd, fun t ht => (h.taken d hd t ht).nonnull hb, h.items d hd⟩

/-- Only directories and header lists matter. -/
theorem DirsBuilt.mono (h : DirsBuilt s dirs added entries)
    (hheads : ∀ d ∈ dirs, (s'.objects d).headerList = (s.objects d).headerList)
    (hlists : s'.lists = s.lists) (hblocks : s'.blocks = s.blocks)
    (hmallocs : s.mallocs ≤ s'.mallocs) : DirsBuilt s' dirs added entries where
  chain d hd := by
    rw [hheads d hd]
    exact (h.chain d hd).congr fun t _ => by rw [State.nextEntry, State.nextEntry, hlists]
  items d hd := by
    rw [hlists]
    exact h.items d hd
  taken d hd t ht := (h.taken d hd t ht).mono hblocks hmallocs
  nodup := h.nodup
  apart := h.apart
  fresh d hd i hi := by
    rw [hblocks]
    exact h.fresh d hd i (hmallocs.trans hi)

/-- What adding an object to a directory does: its list goes on to a new entry. -/
structure EntryAdded (fuel : ℕ) (s s' : State) (d o : ℕ) : Prop where
  append : appendNode fuel s.nextEntry (s.objects d).headerList (s.blocks s.mallocs) =
    some ((s'.objects d).headerList, s'.nextEntry)
  item : (s'.lists (s.blocks s.mallocs)).item = o
  items : ∀ t, t ≠ s.blocks s.mallocs → (s'.lists t).item = (s.lists t).item
  objects : ∀ d', d' ≠ d → s'.objects d' = s.objects d'
  rest : ∃ objects lists,
    s' = { s with mallocs := s.mallocs + 1, objects := objects, lists := lists }

/-- Storing an item leaves the links alone. -/
theorem nextEntry_setItem (lists : ℕ → ObjectHeaderList) (node o : ℕ) :
    (fun t => (Function.update lists node { lists node with item := o } t).next) =
      fun t => (lists t).next := by
  funext t
  rcases eq_or_ne t node with rfl | hne
  · rw [Function.update_self]
  · rw [Function.update_of_ne hne]

/-- Storing a link is an update of the links, and leaves the items alone. -/
theorem nextEntry_setNext (lists : ℕ → ObjectHeaderList) (last node : ℕ) :
    (fun t => (Function.update lists last { lists last with next := node } t).next) =
      Function.update (fun t => (lists t).next) last node := by
  funext t
  rcases eq_or_ne t last with rfl | hne
  · rw [Function.update_self, Function.update_self]
  · rw [Function.update_of_ne hne, Function.update_of_ne hne]

theorem item_setNext (lists : ℕ → ObjectHeaderList) (last node t : ℕ) :
    (Function.update lists last { lists last with next := node } t).item = (lists t).item := by
  rcases eq_or_ne t last with rfl | hne
  · rw [Function.update_self]
  · rw [Function.update_of_ne hne]

theorem directoryAddChild_spec (h : directoryAddChild fuel s d o = some s') :
    EntryAdded fuel s s' d o := by
  unfold directoryAddChild at h
  split_ifs at h with hnull hhead
  · obtain rfl := Option.some.inj h
    refine ⟨?_, ?_, fun t ht => ?_, fun d' hd' => ?_, _, _, rfl⟩
    · have hnode : (Function.update s.objects d
          { s.objects d with headerList := s.blocks s.mallocs } d).headerList =
            s.blocks s.mallocs := by rw [Function.update_self]
      rw [appendNode, if_pos hhead]
      apply congrArg some
      apply Prod.ext
      · exact hnode.symm
      · exact (nextEntry_setItem s.lists (s.blocks s.mallocs) o).symm
    · exact congrArg _ (Function.update_self ..)
    · exact congrArg _ (Function.update_of_ne ht ..)
    · exact Function.update_of_ne hd' ..
  · obtain ⟨last, hwalk, h⟩ := Option.bind_eq_some_iff.mp h
    obtain rfl := Option.some.inj h
    refine ⟨?_, ?_, fun t ht => ?_, fun d' hd' => rfl, _, _, rfl⟩
    · rw [appendNode, if_neg hhead]
      have hnext := (nextEntry_setItem (Function.update s.lists last
        { s.lists last with next := s.blocks s.mallocs }) (s.blocks s.mallocs) o).trans
        (nextEntry_setNext s.lists last (s.blocks s.mallocs))
      refine (congrArg (Option.map _) hwalk).trans (congrArg some ?_)
      exact Prod.ext rfl hnext.symm
    · exact congrArg _ (Function.update_self ..)
    · dsimp only
      rw [Function.update_of_ne ht, item_setNext]

/-- Adding an object returns, with a round for each entry. -/
theorem directoryAddChild_isSome (hd : d ≠ 0) {xs : List ℕ}
    (hchain : Chain s.nextEntry (s.objects d).headerList xs 0) (hfuel : xs.length ≤ fuel) :
    ∃ s', directoryAddChild fuel s d o = some s' := by
  unfold directoryAddChild
  rw [if_neg hd]
  split_ifs with hhead
  · exact ⟨_, rfl⟩
  · rcases List.eq_nil_or_concat' xs with rfl | ⟨init, last, rfl⟩
    · exact absurd hchain hhead
    · obtain ⟨b, -, hlast, hend⟩ := chain_append.mp hchain
      obtain rfl : b = last := hlast
      have hstop : (s.nextEntry b == 0) = true := beq_iff_eq.mpr hend
      obtain ⟨y, -, hwalk, -⟩ : ∃ y ∈ init ++ [b], walk (fun t => (s.lists t).next)
          (fun t => (s.lists t).next == 0) fuel (s.objects d).headerList = some y ∧
            (s.nextEntry y == 0) = true :=
        walk_finds hchain (List.mem_append_right _ (List.mem_singleton_self b)) hstop hfuel
      rw [hwalk]
      exact ⟨_, rfl⟩

/-- Adding an object to a directory writes no header. -/
theorem directoryAddChild_header (h : directoryAddChild fuel s d o = some s') (p : ℕ) :
    (s'.objects p).header = (s.objects p).header := by
  unfold directoryAddChild at h
  split_ifs at h with hnull hhead
  · obtain rfl := Option.some.inj h
    dsimp only
    rcases eq_or_ne p d with rfl | hne
    · rw [Function.update_self]
    · rw [Function.update_of_ne hne]
  · obtain ⟨last, -, h⟩ := Option.bind_eq_some_iff.mp h
    obtain rfl := Option.some.inj h
    rfl

/-- **Adding an object**: with the entries before, the list has the new entry behind them and goes
on where the block led; all other lists stay. -/
theorem DirsBuilt.append (h : DirsBuilt s dirs added entries) (hb : Blocks s) (hd : d ∈ dirs)
    (hadd : EntryAdded fuel s s' d o) :
    Chain s'.nextEntry (s'.objects d).headerList (entries d ++ [s.blocks s.mallocs])
      (s.nextEntry (s.blocks s.mallocs)) ∧
    (entries d ++ [s.blocks s.mallocs]).map (fun t => (s'.lists t).item) = added d ++ [o] ∧
    ∀ d' ∈ dirs, d' ≠ d →
      Chain s'.nextEntry (s'.objects d').headerList (entries d') 0 ∧
      (entries d').map (fun t => (s'.lists t).item) = added d' := by
  have hnew {d' : ℕ} (hd' : d' ∈ dirs) {t : ℕ} (ht : t ∈ entries d') : t ≠ s.blocks s.mallocs :=
    (h.taken d' hd' t ht).ne_block hb le_rfl
  have hitems {d' : ℕ} (hd' : d' ∈ dirs) :
      (entries d').map (fun t => (s'.lists t).item) = added d' := by
    rw [← h.items d' hd']
    exact List.map_congr_left fun t ht => hadd.items t (hnew hd' ht)
  obtain ⟨hchain, hframe⟩ := appendNode_spec (h.chain d hd) (h.nodup d hd)
    (fun t ht => (h.taken d hd t ht).nonnull hb) (fun hmem => hnew hd hmem rfl) hadd.append
  refine ⟨hchain, ?_, fun d' hd' hne => ⟨?_, hitems hd'⟩⟩
  · rw [List.map_append, hitems hd, List.map_singleton, hadd.item]
  · rw [hadd.objects d' hne]
    exact (h.chain d' hd').congr fun t ht =>
      hframe t fun hmem => hne (h.apart d' hd' d hd t ht hmem)

/-- With a block whose link is null the lists are as they should be. -/
theorem DirsBuilt.addChild (h : DirsBuilt s dirs added entries) (hb : Blocks s) (hd : d ∈ dirs)
    (hadd : EntryAdded fuel s s' d o) (hclean : s.nextEntry (s.blocks s.mallocs) = 0) :
    DirsBuilt s' dirs (Function.update added d (added d ++ [o]))
      (Function.update entries d (entries d ++ [s.blocks s.mallocs])) := by
  obtain ⟨hchain, hitems, hother⟩ := h.append hb hd hadd
  obtain ⟨objects, lists, hs'⟩ := hadd.rest
  have hblocks : s'.blocks = s.blocks := by rw [hs']
  have hmallocs : s'.mallocs = s.mallocs + 1 := by rw [hs']
  have hnew {d' : ℕ} (hd' : d' ∈ dirs) {t : ℕ} (ht : t ∈ entries d') : t ≠ s.blocks s.mallocs :=
    (h.taken d' hd' t ht).ne_block hb le_rfl
  rw [hclean] at hchain
  -- the entries of a directory after the call
  have hmem {d' t : ℕ} (ht : t ∈ Function.update entries d (entries d ++ [s.blocks s.mallocs]) d') :
      t ∈ entries d' ∨ d' = d ∧ t = s.blocks s.mallocs := by
    rcases eq_or_ne d' d with rfl | hne
    · rw [Function.update_self, List.mem_append, List.mem_singleton] at ht
      exact ht.imp id fun heq => ⟨rfl, heq⟩
    · rw [Function.update_of_ne hne] at ht
      exact .inl ht
  refine ⟨fun d' hd' => ?_, fun d' hd' => ?_, fun d' hd' t ht => ?_, fun d' hd' => ?_,
    fun d₁ h₁ d₂ h₂ t ht₁ ht₂ => ?_, fun d' hd' i hi => ?_⟩
  · rcases eq_or_ne d' d with rfl | hne
    · rwa [Function.update_self]
    · rw [Function.update_of_ne hne]
      exact (hother d' hd' hne).1
  · rcases eq_or_ne d' d with rfl | hne
    · rwa [Function.update_self, Function.update_self]
    · rw [Function.update_of_ne hne, Function.update_of_ne hne]
      exact (hother d' hd' hne).2
  · rcases hmem ht with ht | ⟨-, rfl⟩
    · exact (h.taken d' hd' t ht).mono hblocks (by omega)
    · exact taken_next (k := 0) hblocks (by omega)
  · rcases eq_or_ne d' d with rfl | hne
    · rw [Function.update_self]
      refine List.nodup_append.mpr ⟨h.nodup d' hd', List.nodup_singleton _, fun t ht u hu => ?_⟩
      rw [List.mem_singleton.mp hu]
      exact hnew hd' ht
    · rw [Function.update_of_ne hne]
      exact h.nodup d' hd'
  · rcases hmem ht₁ with hold₁ | ⟨heq₁, ht⟩
    · rcases hmem ht₂ with hold₂ | ⟨-, ht⟩
      · exact h.apart d₁ h₁ d₂ h₂ t hold₁ hold₂
      · exact absurd ht (hnew h₁ hold₁)
    · rcases hmem ht₂ with hold₂ | ⟨heq₂, -⟩
      · exact absurd ht (hnew h₂ hold₂)
      · exact heq₁.trans heq₂.symm
  · rw [hblocks]
    exact h.fresh d' hd' i (by omega)

/-- With a block whose link is not null the list of the directory does not end behind its
entries. -/
theorem DirsBuilt.not_exact (h : DirsBuilt s dirs added entries) (hb : Blocks s) (hd : d ∈ dirs)
    (hadd : EntryAdded fuel s s' d o) (hstale : s.nextEntry (s.blocks s.mallocs) ≠ 0)
    {added' : ℕ → List ℕ} (hadded : added' d = added d ++ [o]) : ¬ DirsExact s' dirs added' := by
  intro hexact
  obtain ⟨hchain, hitems, -⟩ := h.append hb hd hadd
  obtain ⟨entries', hchain', -, hitems'⟩ := hexact d hd
  have hlen : (entries d ++ [s.blocks s.mallocs]).length = entries'.length := by
    have hmaps := congrArg List.length (hitems.trans (hadded.symm.trans hitems'.symm))
    rwa [List.length_map, List.length_map] at hmaps
  exact hstale (hchain.unique_of_length hchain' hlen).2

/-- A new directory whose block has a null header list. -/
theorem DirsBuilt.newDirectory (h : DirsBuilt s dirs added entries) (hd : d ∉ dirs)
    (htaken : Taken s d) (hb : Blocks s) (hhead : (s.objects d).headerList = 0) :
    DirsBuilt s (dirs ++ [d]) (Function.update added d []) (Function.update entries d []) := by
  have hsplit {d' : ℕ} (hd' : d' ∈ dirs ++ [d]) : d' ∈ dirs ∧ d' ≠ d ∨ d' = d := by
    rcases List.mem_append.mp hd' with hd' | hd'
    · exact .inl ⟨hd', fun heq => hd (heq ▸ hd')⟩
    · exact .inr (List.mem_singleton.mp hd')
  -- the other directories have the entries they had, and the new one has none
  refine ⟨fun d' hd' => ?_, fun d' hd' => ?_, fun d' hd' t ht => ?_, fun d' hd' => ?_,
    fun d₁ h₁ d₂ h₂ t ht₁ ht₂ => ?_, fun d' hd' i hi => ?_⟩
  · rcases hsplit hd' with ⟨hd', hne⟩ | rfl
    · rw [Function.update_of_ne hne]
      exact h.chain d' hd'
    · rw [Function.update_self]
      exact hhead
  · rcases hsplit hd' with ⟨hd', hne⟩ | rfl
    · rw [Function.update_of_ne hne, Function.update_of_ne hne]
      exact h.items d' hd'
    · rw [Function.update_self, Function.update_self]
      rfl
  · rcases hsplit hd' with ⟨hd', hne⟩ | rfl
    · rw [Function.update_of_ne hne] at ht
      exact h.taken d' hd' t ht
    · rw [Function.update_self] at ht
      exact absurd ht List.not_mem_nil
  · rcases hsplit hd' with ⟨hd', hne⟩ | rfl
    · rw [Function.update_of_ne hne]
      exact h.nodup d' hd'
    · rw [Function.update_self]
      exact List.nodup_nil
  · rcases hsplit h₁ with ⟨h₁, hne₁⟩ | rfl
    · rcases hsplit h₂ with ⟨h₂, hne₂⟩ | rfl
      · rw [Function.update_of_ne hne₁] at ht₁
        rw [Function.update_of_ne hne₂] at ht₂
        exact h.apart d₁ h₁ d₂ h₂ t ht₁ ht₂
      · rw [Function.update_self] at ht₂
        exact absurd ht₂ List.not_mem_nil
    · rw [Function.update_self] at ht₁
      exact absurd ht₁ List.not_mem_nil
  · rcases hsplit hd' with ⟨hd', -⟩ | rfl
    · exact h.fresh d' hd' i hi
    · exact htaken.ne_block hb hi

/-! ## Tokens -/

/-- The dictionary with its entries: blocks, each of them once. -/
structure TokensBuilt (s : State) (tokens : List ℕ) : Prop where
  exact : TokensExact s tokens
  taken : ∀ t ∈ tokens, Taken s t
  nodup : tokens.Nodup

theorem TokensBuilt.mono (h : TokensBuilt s tokens) (htokens : s'.tokens = s.tokens)
    (hdict : s'.tokDict = s.tokDict) (hblocks : s'.blocks = s.blocks)
    (hmallocs : s.mallocs ≤ s'.mallocs) : TokensBuilt s' tokens where
  exact := by
    have hchain := h.exact
    rw [TokensExact, hdict]
    exact hchain.congr fun t _ => by rw [State.nextToken, State.nextToken, htokens]
  taken t ht := (h.taken t ht).mono hblocks hmallocs
  nodup := h.nodup

theorem kernelGetTokenForProcess_append {id td : ℕ} {permissions : UInt8}
    (h : kernelGetTokenForProcess fuel s id permissions = some (td, s')) :
    appendNode fuel s.nextToken s.tokDict (s.blocks s.mallocs) =
      some (s'.tokDict, s'.nextToken) := by
  simp only [kernelGetTokenForProcess, State.setToken] at h
  -- the link of the new entry is the one the block held
  have hnext : (fun t => (Function.update s.tokens (s.blocks s.mallocs)
      { id := id, canAccessRoot := permissions &&& 1,
        next := (s.tokens (s.blocks s.mallocs)).next } t).next) = s.nextToken := by
    funext t
    rcases eq_or_ne t (s.blocks s.mallocs) with rfl | hne
    · rw [Function.update_self]
    · rw [Function.update_of_ne hne]
  generalize Function.update s.tokens (s.blocks s.mallocs)
    { id := id, canAccessRoot := permissions &&& 1,
      next := (s.tokens (s.blocks s.mallocs)).next } = entries at h hnext
  by_cases hdict : s.tokDict = 0
  · rw [if_pos hdict] at h
    obtain ⟨-, rfl⟩ := Prod.mk.inj (Option.some.inj h)
    rw [appendNode, if_pos hdict]
    exact congrArg some (Prod.ext rfl hnext.symm)
  · rw [if_neg hdict] at h
    obtain ⟨last, hwalk, h⟩ := Option.bind_eq_some_iff.mp h
    obtain ⟨-, rfl⟩ := Prod.mk.inj (Option.some.inj h)
    have hlink : (fun t => (Function.update entries last
        { entries last with next := s.blocks s.mallocs } t).next) =
        Function.update s.nextToken last (s.blocks s.mallocs) := by
      rw [← hnext]
      funext t
      rcases eq_or_ne t last with rfl | hne
      · rw [Function.update_self, Function.update_self]
      · rw [Function.update_of_ne hne, Function.update_of_ne hne]
    have hwalk' : walk s.nextToken (fun t => s.nextToken t == 0) fuel s.tokDict = some last := by
      rw [← hnext]
      exact hwalk
    rw [appendNode, if_neg hdict, hwalk', Option.map_some]
    exact congrArg some (Prod.ext rfl hlink.symm)

/-- **Adding an entry**: the dictionary goes on to it and from there where the block led. -/
theorem TokensBuilt.append (h : TokensBuilt s tokens) (hb : Blocks s)
    (hx : ∃ i, s.mallocs ≤ i ∧ x = s.blocks i)
    (happend : appendNode fuel s.nextToken s.tokDict x = some (s'.tokDict, s'.nextToken)) :
    (∀ t ∈ tokens, t ≠ x) ∧ Chain s'.nextToken s'.tokDict (tokens ++ [x]) (s.nextToken x) := by
  obtain ⟨i, hi, rfl⟩ := hx
  have hnew : ∀ t ∈ tokens, t ≠ s.blocks i := fun t ht => (h.taken t ht).ne_block hb hi
  exact ⟨hnew, (appendNode_spec h.exact h.nodup (fun t ht => (h.taken t ht).nonnull hb)
    (fun hmem => hnew _ hmem rfl) happend).1⟩

theorem TokensBuilt.addToken (h : TokensBuilt s tokens) (hb : Blocks s) {k : ℕ}
    (happend : appendNode fuel s.nextToken s.tokDict (s.blocks (s.mallocs + k)) =
      some (s'.tokDict, s'.nextToken))
    (hblocks : s'.blocks = s.blocks) (hmallocs : s.mallocs + k < s'.mallocs)
    (hclean : s.nextToken (s.blocks (s.mallocs + k)) = 0) :
    TokensBuilt s' (tokens ++ [s.blocks (s.mallocs + k)]) := by
  obtain ⟨hnew, hchain⟩ := h.append hb ⟨_, Nat.le_add_right _ _, rfl⟩ happend
  rw [hclean] at hchain
  refine ⟨hchain, fun t ht => ?_, ?_⟩
  · rcases List.mem_append.mp ht with ht | ht
    · exact (h.taken t ht).mono hblocks (by omega)
    · obtain rfl := List.mem_singleton.mp ht
      exact taken_next hblocks hmallocs
  · refine List.nodup_append.mpr ⟨h.nodup, List.nodup_singleton _, fun t ht u hu => ?_⟩
    rw [List.mem_singleton.mp hu]
    exact hnew t ht

theorem TokensBuilt.not_exact (h : TokensBuilt s tokens) (hb : Blocks s) {k : ℕ}
    (happend : appendNode fuel s.nextToken s.tokDict (s.blocks (s.mallocs + k)) =
      some (s'.tokDict, s'.nextToken))
    (hstale : s.nextToken (s.blocks (s.mallocs + k)) ≠ 0) :
    ¬ TokensExact s' (tokens ++ [s.blocks (s.mallocs + k)]) := by
  intro hexact
  obtain ⟨-, hchain⟩ := h.append hb ⟨_, Nat.le_add_right _ _, rfl⟩ happend
  exact hstale (hchain.unique_of_length hexact rfl).2

/-! ## Tasks -/

/-- The task list with its nodes: blocks, each of them once. -/
structure TasksBuilt (s : State) (tasks : List ℕ) : Prop where
  exact : TasksExact s tasks
  taken : ∀ t ∈ tasks, Taken s t
  nodup : tasks.Nodup

theorem TasksBuilt.mono (h : TasksBuilt s tasks) (hnodes : s'.nodes = s.nodes)
    (hfirst : s'.firstTask = s.firstTask) (hblocks : s'.blocks = s.blocks)
    (hmallocs : s.mallocs ≤ s'.mallocs) : TasksBuilt s' tasks where
  exact := by
    obtain ⟨hempty, hchain⟩ := h.exact
    rw [TasksExact, hfirst]
    refine ⟨hempty, fun hne => (hchain hne).congr fun t _ => ?_⟩
    rw [State.nextNode, State.nextNode, hnodes]
  taken t ht := (h.taken t ht).mono hblocks hmallocs
  nodup := h.nodup

/-- The list is empty as long as there is no first task. -/
theorem TasksBuilt.eq_nil_iff (h : TasksBuilt s tasks) (hb : Blocks s) :
    tasks = [] ↔ s.firstTask = 0 := by
  refine ⟨h.exact.1, fun hfirst => ?_⟩
  by_contra hne
  obtain ⟨p, ps, rfl⟩ := List.exists_cons_of_ne_nil hne
  obtain ⟨heq, -⟩ := h.exact.2 hne
  exact (h.taken p (List.mem_cons_self ..)).nonnull hb (heq.symm.trans hfirst)

/-- **First process**: the list has the new node and goes on where the block led. -/
theorem CreatedFirst.nextNode {permissions : UInt8} (hc : CreatedFirst s s' permissions) :
    Chain s'.nextNode s'.firstTask [s.blocks s.mallocs] (s.nextNode (s.blocks s.mallocs)) := by
  refine ⟨hc.first, ?_⟩
  rw [State.nextNode, hc.nodes, Function.update_self]
  rfl

/-- **Later process**: the new node closes the ring. -/
theorem TasksBuilt.addNode (h : TasksBuilt s tasks) (hb : Blocks s) (hne : tasks ≠ [])
    {permissions : UInt8} (hc : Created fuel s s' permissions) :
    TasksBuilt s' (tasks ++ [s.blocks s.mallocs]) := by
  obtain ⟨last, hlast, hnodes⟩ := hc.nodes
  have hmallocs := hc.mallocs
  have hnew : ∀ t ∈ tasks, t ≠ s.blocks s.mallocs := fun t ht => (h.taken t ht).ne_block hb le_rfl
  obtain ⟨init, l, rfl⟩ : ∃ init l, tasks = init ++ [l] :=
    ⟨_, _, (List.dropLast_append_getLast hne).symm⟩
  obtain ⟨hinit, hend, hgo⟩ :=
    (h.exact.2 hne).before_last h.nodup fun t ht => (h.taken t ht).nonnull hb
  -- the loop stops at the last node: its link is null or leads back to the first
  obtain rfl : last = l := by
    apply walk_eq_of_chain hlast hinit
    · have hnext : (s.nodes l).next = if 2 ≤ (init ++ [l]).length then s.firstTask else 0 := hend
      rw [hnext]
      split_ifs
      · simp
      · rfl
    · exact fun t ht => by simpa using hgo t ht
  have hlast_init : last ∉ init := fun hmem =>
    (List.nodup_append.mp h.nodup).2.2 last hmem last (List.mem_singleton_self _) rfl
  have hne_new : s.blocks s.mallocs ≠ last := (hnew last (by simp)).symm
  -- the two links that are written
  have hlink : s'.nextNode last = s.blocks s.mallocs := by
    rw [State.nextNode, hnodes, Function.update_self]
  have hback : s'.nextNode (s.blocks s.mallocs) = s.firstTask := by
    rw [State.nextNode, hnodes, Function.update_of_ne hne_new, Function.update_self]
  have hother : ∀ t ∈ init, s'.nextNode t = s.nextNode t := by
    intro t ht
    have htl : t ≠ last := fun heq => hlast_init (heq ▸ ht)
    rw [State.nextNode, hnodes, Function.update_of_ne htl,
      Function.update_of_ne (hnew t (List.mem_append_left _ ht))]
  have hring := (h.exact.2 hne).append_node hlast_init hlink hother
  rw [hback] at hring
  refine ⟨⟨fun hnil => absurd hnil (by simp), fun _ => ?_⟩, fun t ht => ?_, ?_⟩
  · rw [hc.first, if_pos (by simp)]
    exact hring
  · rcases List.mem_append.mp ht with ht | ht
    · exact (h.taken t ht).mono hc.blocks (by omega)
    · obtain rfl := List.mem_singleton.mp ht
      exact taken_next (k := 0) hc.blocks (by omega)
  · refine List.nodup_append.mpr ⟨h.nodup, List.nodup_singleton _, fun t ht u hu => ?_⟩
    rw [List.mem_singleton.mp hu]
    exact hnew t ht

/-- What the creation of a process does to the other lists. -/
theorem kernelInitializeProcess_lists {rip permissions : ℕ}
    (h : kernelInitializeProcess P fuel s rip permissions = some s') :
    appendNode fuel s.nextToken s.tokDict (s.blocks (s.mallocs + 3)) =
      some (s'.tokDict, s'.nextToken) ∧
    s'.objects = s.objects ∧ s'.lists = s.lists ∧ s'.blocks = s.blocks ∧
    s'.mallocs = s.mallocs + 4 := by
  by_cases hfirst : s.firstTask = 0
  · obtain ⟨td, s₁, cwd, htoken, -, rfl⟩ := kernelInitializeProcess_first hfirst h
    have happend := kernelGetTokenForProcess_append htoken
    obtain ⟨rfl, tokens, tokDict, rfl, -⟩ := kernelGetTokenForProcess_spec htoken
    exact ⟨happend, rfl, rfl, rfl, rfl⟩
  · obtain ⟨last, td, s₁, cwd, -, htoken, -, rfl⟩ := kernelInitializeProcess_next hfirst h
    have happend := kernelGetTokenForProcess_append htoken
    obtain ⟨rfl, tokens, tokDict, rfl, -⟩ := kernelGetTokenForProcess_spec htoken
    exact ⟨happend, rfl, rfl, rfl, rfl⟩

/-! ## Runs -/

/-- The state, and what the builders were asked for: the directories with the objects added to
each, the entries of the dictionary and the nodes of the task list. -/
structure BuildRun where
  state : State
  dirs : List ℕ
  added : ℕ → List ℕ
  tokens : List ℕ
  tasks : List ℕ

inductive BuildCall where
  | createDirectory (root : ℕ) (name : List.Vector UInt8 32)
  | addChild (directory object : ℕ)
  | getToken (id : ℕ) (permissions : UInt8)
  | initializeProcess (rip permissions : ℕ)

/-- The state after a call that returns, and what it was asked for. -/
def BuildCall.result (P : Mmu.Platform) (fuel : ℕ) (r : BuildRun) : BuildCall → Option BuildRun
  | .createDirectory root name =>
    (Kernel.createDirectory fuel r.state root name).map fun (dir, s) =>
      { r with
        state := s
        dirs := r.dirs ++ [dir]
        added := Function.update (Function.update r.added root (r.added root ++ [dir])) dir [] }
  | .addChild d o =>
    (directoryAddChild fuel r.state d o).map fun s =>
      { r with state := s, added := Function.update r.added d (r.added d ++ [o]) }
  | .getToken id permissions =>
    (kernelGetTokenForProcess fuel r.state id permissions).map fun (td, s) =>
      { r with state := s, tokens := r.tokens ++ [td] }
  | .initializeProcess rip permissions =>
    (kernelInitializeProcess P fuel r.state rip permissions).map fun s =>
      { r with
        state := s
        -- the first block is the node, the fourth one the entry of the dictionary
        tasks := r.tasks ++ [r.state.blocks r.state.mallocs]
        tokens := r.tokens ++ [r.state.blocks (r.state.mallocs + 3)] }

def BuildRun.step (P : Mmu.Platform) (fuel : ℕ) (r : BuildRun) (c : BuildCall) : BuildRun :=
  (c.result P fuel r).getD r

/-- Objects are added to directories. -/
def BuildRun.Known (r : BuildRun) : BuildCall → Prop
  | .createDirectory root _ => root ∈ r.dirs
  | .addChild d _ => d ∈ r.dirs
  | _ => True

/-- Objects are added to directories, and the call returns. -/
def BuildRun.Callable (P : Mmu.Platform) (fuel : ℕ) (r : BuildRun) (c : BuildCall) : Prop :=
  r.Known c ∧ (c.result P fuel r).isSome

/-- The blocks that the call takes hold zero in the fields that are not written: the link of an
entry, the header list of a directory, the link of the first node of the task list. -/
def BuildRun.Clean (r : BuildRun) : BuildCall → Prop
  | .createDirectory _ _ =>
    (r.state.objects (r.state.blocks r.state.mallocs)).headerList = 0 ∧
      (r.state.lists (r.state.blocks (r.state.mallocs + 1))).next = 0
  | .addChild _ _ => (r.state.lists (r.state.blocks r.state.mallocs)).next = 0
  | .getToken _ _ => (r.state.tokens (r.state.blocks r.state.mallocs)).next = 0
  | .initializeProcess _ _ =>
    (r.state.tokens (r.state.blocks (r.state.mallocs + 3))).next = 0 ∧
      (r.state.firstTask = 0 → (r.state.nodes (r.state.blocks r.state.mallocs)).next = 0)

instance (r : BuildRun) : (c : BuildCall) → Decidable (r.Known c)
  | .createDirectory _ _ => inferInstanceAs (Decidable (_ ∈ _))
  | .addChild _ _ => inferInstanceAs (Decidable (_ ∈ _))
  | .getToken _ _ => .isTrue trivial
  | .initializeProcess _ _ => .isTrue trivial

instance (P : Mmu.Platform) (fuel : ℕ) (r : BuildRun) (c : BuildCall) :
    Decidable (r.Callable P fuel c) :=
  inferInstanceAs (Decidable (_ ∧ _))

instance (r : BuildRun) : (c : BuildCall) → Decidable (r.Clean c)
  | .createDirectory _ _ => inferInstanceAs (Decidable (_ ∧ _))
  | .addChild _ _ => inferInstanceAs (Decidable (_ = 0))
  | .getToken _ _ => inferInstanceAs (Decidable (_ = 0))
  | .initializeProcess _ _ => inferInstanceAs (Decidable (_ ∧ (_ = 0 → _ = 0)))

/-- All lists are what was added. -/
structure ListsExact (r : BuildRun) : Prop where
  dirs : DirsExact r.state r.dirs r.added
  tokens : TokensExact r.state r.tokens
  tasks : TasksExact r.state r.tasks

structure Built (r : BuildRun) : Prop where
  blocks : Blocks r.state
  dirs : ∃ entries, DirsBuilt r.state r.dirs r.added entries
  tokens : TokensBuilt r.state r.tokens
  tasks : TasksBuilt r.state r.tasks

variable {r r' : BuildRun} {c : BuildCall}

theorem Built.exact (h : Built r) : ListsExact r := by
  obtain ⟨entries, hdirs⟩ := h.dirs
  exact ⟨hdirs.exact h.blocks, h.tokens.exact, h.tasks.exact⟩

theorem Blocks.of_eq (h : Blocks s) (hblocks : s'.blocks = s.blocks) : Blocks s' :=
  ⟨hblocks ▸ h.nonnull, hblocks ▸ h.injective⟩

/-- The node of a process: with the first process the block may lead on. -/
theorem TasksBuilt.initialize (h : TasksBuilt s tasks) (hb : Blocks s) {rip permissions : ℕ}
    (hinit : kernelInitializeProcess P fuel s rip permissions = some s')
    (hblocks : s'.blocks = s.blocks) :
    ((s.firstTask = 0 → s.nextNode (s.blocks s.mallocs) = 0) →
      TasksBuilt s' (tasks ++ [s.blocks s.mallocs])) ∧
    (¬ (s.firstTask = 0 → s.nextNode (s.blocks s.mallocs) = 0) →
      ¬ TasksExact s' (tasks ++ [s.blocks s.mallocs])) := by
  by_cases hfirst : s.firstTask = 0
  · obtain rfl := (h.eq_nil_iff hb).mpr hfirst
    have hcreated := initializeFirst_spec hfirst hinit
    have hchain := hcreated.nextNode
    have hmallocs := hcreated.mallocs
    constructor
    · intro hclean
      rw [hclean hfirst] at hchain
      refine ⟨⟨fun hnil => absurd hnil (by simp), fun _ => hchain⟩, fun t ht => ?_,
        List.nodup_singleton _⟩
      obtain rfl := List.mem_singleton.mp ht
      exact taken_next (k := 0) hblocks (by omega)
    · intro hstale hexact
      rw [Classical.not_imp] at hstale
      exact hstale.2 (hchain.unique_of_length (hexact.2 (by simp)) rfl).2
  · refine ⟨fun _ => ?_, fun hstale => absurd (fun hzero => absurd hzero hfirst) hstale⟩
    exact h.addNode hb (fun hnil => hfirst (h.exact.1 hnil)) (initializeNext_spec hfirst hinit)

/-- What the creation of a directory does: the name, and then the entry in the root. -/
theorem createDirectory_spec {root dir : ℕ} {name : List.Vector UInt8 32}
    (h : createDirectory fuel s root name = some (dir, s')) :
    dir = s.blocks s.mallocs ∧ ∃ s₁, directoryAddChild fuel s₁ root dir = some s' ∧
      s₁.lists = s.lists ∧ s₁.blocks = s.blocks ∧ s₁.mallocs = s.mallocs + 1 ∧
      s₁.tokens = s.tokens ∧ s₁.tokDict = s.tokDict ∧ s₁.nodes = s.nodes ∧
      s₁.firstTask = s.firstTask ∧
      ∀ d, (s₁.objects d).headerList = (s.objects d).headerList := by
  obtain ⟨s₂, hadd, heq⟩ := Option.bind_eq_some_iff.mp h
  obtain ⟨rfl, rfl⟩ := Prod.mk.inj (Option.some.inj heq)
  refine ⟨rfl, _, hadd, rfl, rfl, rfl, rfl, rfl, rfl, rfl, fun d => ?_⟩
  show (Function.update s.objects (s.blocks s.mallocs) _ d).headerList = _
  rcases eq_or_ne d (s.blocks s.mallocs) with rfl | hne
  · rw [Function.update_self]
  · rw [Function.update_of_ne hne]

/-- **A new directory** with a clean block, and a clean block for its entry. -/
theorem Built.createDirectory (h : Built r) {root dir : ℕ} {name : List.Vector UInt8 32}
    (hroot : root ∈ r.dirs) (hcall : Kernel.createDirectory fuel r.state root name = some (dir, s'))
    (hr' : r' = { r with
      state := s'
      dirs := r.dirs ++ [dir]
      added := Function.update (Function.update r.added root (r.added root ++ [dir])) dir [] }) :
    (r.Clean (.createDirectory root name) → Built r') ∧
      (¬ r.Clean (.createDirectory root name) → ¬ ListsExact r') := by
  obtain ⟨hb, ⟨entries, hdirs⟩, htokens, htasks⟩ := h
  obtain ⟨rfl, s₁, hadd, hlists, hblocks, hmallocs, htok, hdict, hnodes, hfirst, hheads⟩ :=
    createDirectory_spec hcall
  have hb₁ : Blocks s₁ := hb.of_eq hblocks
  have hdirs₁ : DirsBuilt s₁ r.dirs r.added entries :=
    hdirs.mono (fun d _ => hheads d) hlists hblocks (by omega)
  have hspec := directoryAddChild_spec hadd
  obtain ⟨objects, lists, hs'⟩ := hspec.rest
  have hnode : s₁.nextEntry (s₁.blocks s₁.mallocs) =
      (r.state.lists (r.state.blocks (r.state.mallocs + 1))).next := by
    rw [State.nextEntry, hlists, hblocks, hmallocs]
  -- the directory is none of those before, and the entry in the root leaves its list alone
  have hdir : r.state.blocks r.state.mallocs ∉ r.dirs :=
    fun hmem => hdirs.fresh _ hmem r.state.mallocs le_rfl rfl
  have hne : r.state.blocks r.state.mallocs ≠ root := fun heq => hdir (heq ▸ hroot)
  have hhead : (s'.objects (r.state.blocks r.state.mallocs)).headerList =
      (r.state.objects (r.state.blocks r.state.mallocs)).headerList := by
    rw [hspec.objects _ hne, hheads]
  have hblocks' : s'.blocks = r.state.blocks := by rw [hs']; exact hblocks
  have hmallocs' : s'.mallocs = r.state.mallocs + 2 := by
    rw [hs']
    exact congrArg Nat.succ hmallocs
  subst hr'
  constructor
  · intro hclean
    obtain ⟨hlist, hnext⟩ := hclean
    have hdirs' := hdirs₁.addChild hb₁ hroot hspec (hnode.trans hnext)
    have htaken : Taken s' (r.state.blocks r.state.mallocs) :=
      taken_next (k := 0) hblocks' (by omega)
    have hb' : Blocks s' := hb.of_eq hblocks'
    have hle : r.state.mallocs ≤ s'.mallocs := by omega
    refine ⟨hb', ⟨_, hdirs'.newDirectory hdir htaken hb' (hhead.trans hlist)⟩, ?_, ?_⟩
    · exact htokens.mono (by rw [hs']; exact htok) (by rw [hs']; exact hdict) hblocks' hle
    · exact htasks.mono (by rw [hs']; exact hnodes) (by rw [hs']; exact hfirst) hblocks' hle
  · intro hstale hexact
    apply hstale
    constructor
    · -- the list of the new directory is empty
      obtain ⟨entries', hchain, -, hitems⟩ := hexact.dirs _ (List.mem_append_right _
        (List.mem_singleton_self _))
      dsimp only at hchain hitems
      rw [Function.update_self] at hitems
      obtain rfl := List.map_eq_nil_iff.mp hitems
      rw [← hhead]
      exact hchain
    · -- the list of the root ends behind its new entry
      by_contra hnext
      have hadded : Function.update (Function.update r.added root (r.added root ++
          [r.state.blocks r.state.mallocs])) (r.state.blocks r.state.mallocs) [] root =
          r.added root ++ [r.state.blocks r.state.mallocs] := by
        rw [Function.update_of_ne hne.symm, Function.update_self]
      exact hdirs₁.not_exact hb₁ hroot hspec (hnode ▸ hnext) hadded
        fun d hd => hexact.dirs d (List.mem_append_left _ hd)

/-- **One call**: with clean blocks the lists are built on, otherwise one of them is not what was
added. -/
theorem Built.call (h : Built r) (hc : r.Callable P fuel c) (hresult : c.result P fuel r = some r') :
    (r.Clean c → Built r') ∧ (¬ r.Clean c → ¬ ListsExact r') := by
  obtain ⟨hb, ⟨entries, hdirs⟩, htokens, htasks⟩ := h
  obtain ⟨hmem, -⟩ := hc
  cases c with
  | addChild d o =>
    obtain ⟨s', hadd, rfl⟩ := Option.map_eq_some_iff.mp hresult
    -- one block, for the entry
    have hspec := directoryAddChild_spec hadd
    obtain ⟨objects, lists, rfl⟩ := hspec.rest
    refine ⟨fun hclean => ⟨hb.of_eq rfl, ⟨_, hdirs.addChild hb hmem hspec hclean⟩,
      htokens.mono rfl rfl rfl (Nat.le_succ _), htasks.mono rfl rfl rfl (Nat.le_succ _)⟩,
      fun hstale hexact => ?_⟩
    exact hdirs.not_exact hb hmem hspec hstale (Function.update_self ..) hexact.dirs
  | getToken id permissions =>
    obtain ⟨⟨td, s'⟩, htoken, rfl⟩ := Option.map_eq_some_iff.mp hresult
    have happend := kernelGetTokenForProcess_append htoken
    obtain ⟨rfl, tokens, tokDict, rfl, -⟩ := kernelGetTokenForProcess_spec htoken
    refine ⟨fun hclean => ⟨hb.of_eq rfl, ⟨_, hdirs.mono (fun _ _ => rfl) rfl rfl (Nat.le_succ _)⟩,
      htokens.addToken (k := 0) hb happend rfl (Nat.lt_succ_self _) hclean,
      htasks.mono rfl rfl rfl (Nat.le_succ _)⟩, fun hstale hexact => ?_⟩
    exact htokens.not_exact (k := 0) hb happend hstale hexact.tokens
  | initializeProcess rip permissions =>
    obtain ⟨s', hinit, rfl⟩ := Option.map_eq_some_iff.mp hresult
    -- four blocks: node, task, stack, and the entry of the token
    obtain ⟨happend, hobjects, hlists, hblocks, hmallocs⟩ := kernelInitializeProcess_lists hinit
    obtain ⟨hbuilt, hbroken⟩ := htasks.initialize hb hinit hblocks
    have hle : r.state.mallocs ≤ s'.mallocs := by omega
    have hlt : r.state.mallocs + 3 < s'.mallocs := by omega
    constructor
    · rintro ⟨htoken, hnode⟩
      refine ⟨hb.of_eq hblocks, ⟨entries, hdirs.mono (fun d _ => ?_) hlists hblocks hle⟩,
        htokens.addToken hb happend hblocks hlt htoken, hbuilt hnode⟩
      rw [hobjects]
    · intro hstale hexact
      rcases not_and_or.mp hstale with htoken | hnode
      · exact htokens.not_exact hb happend htoken hexact.tokens
      · exact hbroken hnode hexact.tasks
  | createDirectory root name =>
    obtain ⟨⟨dir, s'⟩, hcall, rfl⟩ := Option.map_eq_some_iff.mp hresult
    exact Built.createDirectory ⟨hb, ⟨entries, hdirs⟩, htokens, htasks⟩ hmem hcall rfl

/-- Before the first call: directories with null header lists, no dictionary and no process. -/
structure BuildStart (s : State) (dirs : List ℕ) : Prop where
  blocks : Blocks s
  lists : ∀ d ∈ dirs, (s.objects d).headerList = 0
  fresh : ∀ d ∈ dirs, ∀ i, s.mallocs ≤ i → d ≠ s.blocks i
  dict : s.tokDict = 0
  first : s.firstTask = 0

theorem Built.start (h : BuildStart s dirs) : Built ⟨s, dirs, fun _ => [], [], []⟩ where
  blocks := h.blocks
  dirs :=
    ⟨fun _ => [],
      { chain := h.lists
        items := fun _ _ => rfl
        taken := fun _ _ _ ht => absurd ht List.not_mem_nil
        nodup := fun _ _ => List.nodup_nil
        apart := fun _ _ _ _ _ ht => absurd ht List.not_mem_nil
        fresh := h.fresh }⟩
  tokens := ⟨h.dict, fun _ ht => absurd ht List.not_mem_nil, List.nodup_nil⟩
  tasks := ⟨⟨fun _ => h.first, fun hne => absurd rfl hne⟩,
    fun _ ht => absurd ht List.not_mem_nil, List.nodup_nil⟩

/-- **Lists and stale blocks**: after every call of a run of the builders the header lists, the
token dictionary and the task list are what was added, if and only if every block taken holds
zero in the fields that its builder does not write. -/
theorem listsExact_iff (h : BuildStart s dirs) {calls : List BuildCall}
    (hcalls : Along (BuildRun.step P fuel) (BuildRun.Callable P fuel)
      ⟨s, dirs, fun _ => [], [], []⟩ calls) :
    Everywhere (BuildRun.step P fuel) ListsExact ⟨s, dirs, fun _ => [], [], []⟩ calls ↔
      Along (BuildRun.step P fuel) BuildRun.Clean ⟨s, dirs, fun _ => [], [], []⟩ calls := by
  have hstep : ∀ r c, Built r → r.Callable P fuel c →
      (r.Clean c → Built (r.step P fuel c)) ∧ (¬ r.Clean c → ¬ ListsExact (r.step P fuel c)) := by
    intro r c hbuilt hc
    obtain ⟨r', hresult⟩ := Option.isSome_iff_exists.mp hc.2
    have heq : r.step P fuel c = r' := by rw [BuildRun.step, hresult]; rfl
    rw [heq]
    exact hbuilt.call hc hresult
  apply everywhere_iff_along hcalls (Built.start h)
  · exact fun r c hbuilt hc => (hstep r c hbuilt hc).1
  · exact fun r hbuilt => hbuilt.exact
  · exact fun r c hbuilt hc => (hstep r c hbuilt hc).2

theorem buildStart_bootKernel : BuildStart bootKernel [0x1000] where
  blocks := ⟨bootKernel_start.blocks.nonnull, bootKernel_start.blocks.injective⟩
  lists := by decide
  fresh d hd i _ := by
    rw [List.mem_singleton.mp hd]
    simp only [bootKernel]
    omega
  dict := rfl
  first := rfl

/-- Two directories and two processes on zero-filled blocks. -/
theorem listsExact_boot :
    Everywhere (BuildRun.step Mmu.bootPlatform 8) ListsExact ⟨bootKernel, [0x1000], fun _ => [], [], []⟩
      [.createDirectory 0x1000 (.replicate 32 97), .addChild 0x1000 0x7000,
        .addChild 0x200000 0x7100, .initializeProcess 0x2000 1, .getToken 7 0,
        .initializeProcess 0x3000 0] :=
  (listsExact_iff buildStart_bootKernel (by decide)).mpr (by decide)

/-- A kernel whose heap has blocks with something in their second word. -/
def usedKernel : State := { bootKernel with lists := fun _ => ⟨0, 0x5000⟩ }

/-- The header list of a directory with one object does not end behind it. -/
theorem entry_leads_on :
    (usedKernel.objects 0x1000).headerList = 0 ∧
    ((directoryAddChild 8 usedKernel 0x1000 0x7000).map fun s =>
      (s.lists (s.objects 0x1000).headerList)) = some ⟨0x7000, 0x5000⟩ ∧
    ¬ Everywhere (BuildRun.step Mmu.bootPlatform 8) ListsExact
      ⟨usedKernel, [0x1000], fun _ => [], [], []⟩ [.addChild 0x1000 0x7000] := by
  have hstart : BuildStart usedKernel [0x1000] :=
    { blocks := ⟨buildStart_bootKernel.blocks.nonnull, buildStart_bootKernel.blocks.injective⟩
      lists := buildStart_bootKernel.lists
      fresh := buildStart_bootKernel.fresh
      dict := rfl
      first := rfl }
  refine ⟨rfl, rfl, fun hexact => ?_⟩
  have hcall : BuildRun.Callable Mmu.bootPlatform 8 ⟨usedKernel, [0x1000], fun _ => [], [], []⟩
      (.addChild 0x1000 0x7000) := by decide
  exact ((Built.start hstart).call hcall rfl).2 (by decide) hexact.last

end Cutesugar.Kernel
