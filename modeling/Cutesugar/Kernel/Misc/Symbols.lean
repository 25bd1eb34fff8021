import Cutesugar.Kernel.Misc.Elf

/-!
# The list of symbols (`kernel/misc/elf.c`)

`add_to_symbols` writes a new node and then looks for the end of the list. On the way it compares the name
with that of the first node, in every round again, and gives up where the two are the same. A name that a
later node has is appended once more, and `search_for_modules` never comes to the second node.

- `addToSymbols`, `searchForModules`: the functions on the nodes.
- `SymbolList`: the nodes hold a list of symbols, which the calls on the nodes change as those of the
  loader change its list.
- `search_first_wins`: the first definition of a name is the one found.
-/

namespace Cutesugar.Kernel.Symbols

open Lib Libc

/-! ## Nodes -/

/-- `struct FunctionSymbolList`. -/
structure FunctionSymbolList where
  name : List.Vector UInt8 256
  baseAddress : ℕ
  function : ℕ
  next : ℕ

/-- `symbol_list` and the heap of its nodes. `blocks i` is what the `i`-th call of `malloc` returns and
`mallocs` counts the calls made so far. -/
structure SymbolState where
  nodes : ℕ → FunctionSymbolList
  symbolList : ℕ
  blocks : ℕ → ℕ
  mallocs : ℕ

def SymbolState.setNode (s : SymbolState) (p : ℕ) (n : FunctionSymbolList) : SymbolState :=
  { s with nodes := Function.update s.nodes p n }

/-- `memcpy` of `n` bytes to the start of a name. -/
def memcpyName (field : List.Vector UInt8 256) (name : List UInt8) (n : ℕ) :
    Except Fault (List.Vector UInt8 256) :=
  if h : n ≤ 256 ∧ n ≤ name.length then
    .ok ⟨name.take n ++ field.toList.drop n, by simp; omega⟩
  else if 256 < n then .error .overflow
  else .error .overread

/-- The loop of `add_to_symbols`, at the node `t`: `length` bytes of the name are compared with those of
the first node. -/
def addLoop (s : SymbolState) (new length : ℕ) (name : List UInt8) : ℕ → ℕ → Except Fault SymbolState
  | 0, _ => .error .stuck
  | fuel + 1, t =>
    if (s.nodes t).next = 0 then .ok (s.setNode t { s.nodes t with next := new })
    else do
      let order ← strncmp (s.nodes s.symbolList).name.toList name length
      if order = 0 then .ok s else addLoop s new length name fuel (s.nodes t).next

/-- `add_to_symbols`, with the bytes from `name` on. `next` of the new node is what the block held. -/
def addToSymbols (fuel : ℕ) (s : SymbolState) (function : ℕ) (name : List UInt8) :
    Except Fault SymbolState := do
  let new := s.blocks s.mallocs
  let s := { s with mallocs := s.mallocs + 1 }
  let length ← strlen name
  let field ← memcpyName (s.nodes new).name name (length + 1)
  let s := s.setNode new { s.nodes new with name := field, function := function }
  -- an empty list takes any name
  if s.symbolList = 0 then .ok { s with symbolList := new }
  else addLoop s new (length + 1) name fuel s.symbolList

/-- The loop of `search_for_modules`, at the node `t`. -/
def searchLoop (s : SymbolState) (length : ℕ) (name : List UInt8) : ℕ → ℕ → Except Fault ℕ
  | 0, _ => .error .stuck
  | fuel + 1, t =>
    if t = 0 then .ok 0
    else do
      let order ← strncmp (s.nodes t).name.toList name length
      if order = 0 then .ok (s.nodes t).function else searchLoop s length name fuel (s.nodes t).next

/-- `search_for_modules`. The length of the name is taken anew in every round. -/
def searchForModules (fuel : ℕ) (s : SymbolState) (name : List UInt8) : Except Fault ℕ :=
  if s.symbolList = 0 then .ok 0
  else do
    let length ← strlen name
    searchLoop s (length + 1) name fuel s.symbolList

/-! ## Names -/

/-- What a pointer to a name of fewer than 256 bytes points to. -/
structure SymbolName where
  bytes : List UInt8
  ends : 0 ∈ bytes
  short : (cString bytes).length < 256

variable {s s' : SymbolState} {ts : List ℕ} {symbols : List Elf.FunctionSymbol} {fuel function t : ℕ}
  {bs : List UInt8}

/-- A string with its NUL, and what follows. -/
theorem exists_cString (h : 0 ∈ bs) : 0 ∉ cString bs ∧ ∃ rest, bs = cString bs ++ 0 :: rest := by
  induction bs with
  | nil => exact absurd h List.not_mem_nil
  | cons c cs ih =>
    by_cases hc : c = 0
    · subst hc
      exact ⟨List.not_mem_nil, cs, rfl⟩
    · obtain ⟨hnul, rest, hrest⟩ := ih ((List.mem_cons.mp h).resolve_left (Ne.symm hc))
      rw [cString_cons hc]
      refine ⟨?_, rest, ?_⟩
      · simpa using ⟨Ne.symm hc, hnul⟩
      · rw [List.cons_append, ← hrest]

theorem strlen_cString (h : 0 ∈ bs) : strlen bs = .ok (cString bs).length := by
  obtain ⟨hnul, rest, hbs⟩ := exists_cString h
  conv_lhs => rw [hbs]
  exact strlen_append hnul

/-- A string with its NUL is shorter than the array. -/
theorem length_cString_lt (h : 0 ∈ bs) : (cString bs).length < bs.length := by
  obtain ⟨-, rest, hbs⟩ := exists_cString h
  have hlen := congrArg List.length hbs
  rw [List.length_append, List.length_cons] at hlen
  omega

/-- The bytes of a string with its NUL. -/
theorem take_cString (h : 0 ∈ bs) : bs.take ((cString bs).length + 1) = cString bs ++ [0] := by
  obtain ⟨-, rest, hbs⟩ := exists_cString h
  calc bs.take ((cString bs).length + 1)
      = (cString bs ++ [0] ++ rest).take ((cString bs).length + 1) := by
        rw [List.append_assoc]
        exact congrArg _ hbs
    _ = cString bs ++ [0] := List.take_left' (by simp)

/-- A name fits into its field, and is read back from there. -/
theorem memcpyName_eq (field : List.Vector UInt8 256) (name : SymbolName) :
    ∃ field', memcpyName field name.bytes ((cString name.bytes).length + 1) = .ok field' ∧
      0 ∈ field'.toList ∧ cString field'.toList = cString name.bytes := by
  have hroom : (cString name.bytes).length + 1 ≤ 256 ∧
      (cString name.bytes).length + 1 ≤ name.bytes.length :=
    ⟨name.short, length_cString_lt name.ends⟩
  obtain ⟨hnul, -⟩ := exists_cString name.ends
  rw [memcpyName, dif_pos hroom]
  refine ⟨_, rfl, ?_⟩
  simp only [List.Vector.toList_mk, take_cString name.ends, List.append_assoc, List.singleton_append]
  exact ⟨by simp, cString_append hnul⟩

/-- The comparison of two strings, up to the NUL of the second one. -/
theorem strncmp_cString {field : List UInt8} (hfield : 0 ∈ field) (h : 0 ∈ bs) :
    ∃ order, strncmp field bs ((cString bs).length + 1) = .ok order ∧
      (order = 0 ↔ cString field = cString bs) := by
  obtain ⟨order, horder, hiff⟩ := strncmp_spec (n := (cString bs).length + 1) (.inr hfield) (.inr h)
  have hself : cString (bs.take ((cString bs).length + 1)) = cString bs :=
    (cString_take_eq_iff (Nat.lt_succ_self _)).mpr rfl
  refine ⟨order, horder, hiff.trans ?_⟩
  rw [hself]
  exact cString_take_eq_iff (Nat.lt_succ_self _)

/-! ## The nodes as a list of symbols -/

/-- What a node says. -/
def FunctionSymbolList.symbol (n : FunctionSymbolList) : Elf.FunctionSymbol where
  name := cString n.name.toList
  function := n.function

/-- The nodes `ts` of the list hold these symbols, and blocks to come are zero-filled. -/
structure SymbolList (s : SymbolState) (ts : List ℕ) (symbols : List Elf.FunctionSymbol) : Prop where
  nonnull : ∀ i, s.blocks i ≠ 0
  injective : Function.Injective s.blocks
  chain : Chain (fun t => (s.nodes t).next) s.symbolList ts 0
  node : ∀ t ∈ ts, ∃ i < s.mallocs, t = s.blocks i
  zero : ∀ i, s.mallocs ≤ i → (s.nodes (s.blocks i)).next = 0
  ends : ∀ t ∈ ts, 0 ∈ (s.nodes t).name.toList
  symbols : ts.map (fun t => (s.nodes t).symbol) = symbols

/-- No symbol was added yet, and the nodes to come are zero-filled. -/
structure Start (s : SymbolState) : Prop where
  nonnull : ∀ i, s.blocks i ≠ 0
  injective : Function.Injective s.blocks
  empty : s.symbolList = 0
  zero : ∀ i, s.mallocs ≤ i → s.nodes (s.blocks i) = ⟨.replicate 256 0, 0, 0, 0⟩

theorem SymbolList.start (h : Start s) : SymbolList s [] [] where
  nonnull := h.nonnull
  injective := h.injective
  chain := h.empty
  node _ ht := absurd ht List.not_mem_nil
  zero i hi := by rw [h.zero i hi]
  ends _ ht := absurd ht List.not_mem_nil
  symbols := rfl

theorem SymbolList.node_ne_zero (h : SymbolList s ts symbols) (ht : t ∈ ts) : t ≠ 0 := by
  obtain ⟨i, -, rfl⟩ := h.node t ht
  exact h.nonnull i

theorem SymbolList.fresh (h : SymbolList s ts symbols) (ht : t ∈ ts) : t ≠ s.blocks s.mallocs := by
  obtain ⟨i, hi, rfl⟩ := h.node t ht
  exact fun heq => hi.ne (h.injective heq)

/-- The state with the new node written, which is not linked yet. -/
def SymbolState.write (s : SymbolState) (field : List.Vector UInt8 256) (function : ℕ) : SymbolState :=
  { s with mallocs := s.mallocs + 1 }.setNode (s.blocks s.mallocs)
    { s.nodes (s.blocks s.mallocs) with name := field, function := function }

/-- A new node changes no list. -/
theorem SymbolList.write (h : SymbolList s ts symbols) (field : List.Vector UInt8 256) (function : ℕ) :
    SymbolList (s.write field function) ts symbols := by
  have hsame : ∀ t ∈ ts, (s.write field function).nodes t = s.nodes t := by
    intro t ht
    exact Function.update_of_ne (h.fresh ht) ..
  refine ⟨h.nonnull, h.injective, ?_, fun t ht => ?_, fun i hi => ?_, fun t ht => ?_, ?_⟩
  · apply h.chain.congr
    intro t ht
    rw [hsame t ht]
  · obtain ⟨i, hi, heq⟩ := h.node t ht
    exact ⟨i, Nat.lt_succ_of_lt hi, heq⟩
  · have hne : s.blocks i ≠ s.blocks s.mallocs := fun heq => by
      have hle : s.mallocs + 1 ≤ i := hi
      have := h.injective heq
      omega
    change (Function.update s.nodes _ _ (s.blocks i)).next = 0
    rw [Function.update_of_ne hne]
    exact h.zero i (Nat.le_of_succ_le hi)
  · rw [hsame t ht]
    exact h.ends t ht
  · rw [← h.symbols]
    apply List.map_congr_left
    intro t ht
    rw [hsame t ht]

/-! ## Adding -/

/-- The loop runs to the last node where the name differs from that of the first node. -/
theorem addLoop_eq {new length l : ℕ} {init : List ℕ}
    (hchain : Chain (fun t => (s.nodes t).next) t (init ++ [l]) 0)
    (hgo : ∀ x ∈ init, (s.nodes x).next ≠ 0)
    (hdiff : init ≠ [] → ∃ order, strncmp (s.nodes s.symbolList).name.toList bs length = .ok order ∧
      order ≠ 0) (hfuel : init.length < fuel) :
    addLoop s new length bs fuel t = .ok (s.setNode l { s.nodes l with next := new }) := by
  induction init generalizing t fuel with
  | nil =>
    obtain ⟨rfl, hend⟩ := hchain
    have hlast : (s.nodes t).next = 0 := hend
    obtain ⟨fuel, rfl⟩ := Nat.exists_eq_add_one_of_ne_zero (Nat.ne_of_gt hfuel)
    rw [addLoop, if_pos hlast]
  | cons x init ih =>
    obtain ⟨rfl, hrest⟩ := hchain
    obtain ⟨fuel, rfl⟩ := Nat.exists_eq_add_one_of_ne_zero (Nat.ne_zero_of_lt hfuel)
    obtain ⟨order, horder, hne⟩ := hdiff (by simp)
    rw [addLoop, if_neg (hgo t (List.mem_cons_self ..))]
    simp only [horder, bind, Except.bind, if_neg hne]
    apply ih hrest
    · exact fun y hy => hgo y (List.mem_cons_of_mem _ hy)
    · exact fun _ => ⟨order, horder, hne⟩
    · exact Nat.lt_of_succ_lt_succ hfuel

/-- The last node of a list is linked to the new one. -/
theorem SymbolList.link {init : List ℕ} {l : ℕ} {field : List.Vector UInt8 256}
    (h : SymbolList s (init ++ [l]) symbols) (hfield : 0 ∈ field.toList) :
    SymbolList ((s.write field function).setNode l
        { (s.write field function).nodes l with next := s.blocks s.mallocs })
      (init ++ [l] ++ [s.blocks s.mallocs]) (symbols ++ [⟨cString field.toList, function⟩]) := by
  have hwrite := h.write field function
  have hnodup := h.chain.nodup fun _ ht => h.node_ne_zero ht
  have hl : l ∉ init := fun hmem =>
    (List.nodup_append.mp hnodup).2.2 l hmem l (List.mem_singleton_self l) rfl
  have hnew : s.blocks s.mallocs ≠ l := (h.fresh (by simp)).symm
  -- the three kinds of nodes
  generalize hs' : (s.write field function).setNode l _ = s'
  have hlast : s'.nodes l = { (s.write field function).nodes l with next := s.blocks s.mallocs } := by
    rw [← hs']
    exact Function.update_self ..
  have hother : ∀ t, t ≠ l → s'.nodes t = (s.write field function).nodes t := by
    intro t ht
    rw [← hs']
    exact Function.update_of_ne ht ..
  have hblock : (s.write field function).nodes (s.blocks s.mallocs) =
      { s.nodes (s.blocks s.mallocs) with name := field, function := function } :=
    Function.update_self ..
  have hsymbol : ∀ t, (s'.nodes t).symbol = ((s.write field function).nodes t).symbol := by
    intro t
    rcases eq_or_ne t l with rfl | ht
    · rw [hlast]
      rfl
    · rw [hother t ht]
  have hname : ∀ t, (s'.nodes t).name = ((s.write field function).nodes t).name := by
    intro t
    rcases eq_or_ne t l with rfl | ht
    · rw [hlast]
    · rw [hother t ht]
  have hblocks : s'.blocks = s.blocks := by rw [← hs']; rfl
  have hmallocs : s'.mallocs = s.mallocs + 1 := by rw [← hs']; rfl
  have hfirst : s'.symbolList = s.symbolList := by rw [← hs']; rfl
  have hzero : (s'.nodes (s.blocks s.mallocs)).next = 0 := by
    rw [hother _ hnew, hblock]
    exact h.zero s.mallocs le_rfl
  refine ⟨hblocks ▸ h.nonnull, hblocks ▸ h.injective, ?_, fun t ht => ?_, fun i hi => ?_, fun t ht => ?_, ?_⟩
  · rw [hfirst, ← hzero]
    refine hwrite.chain.append_node hl ?_ ?_
    · rw [hlast]
    · intro t ht
      rw [hother t fun heq => hl (heq ▸ ht)]
  · rw [hblocks, hmallocs]
    rcases List.mem_append.mp ht with ht | ht
    · obtain ⟨i, hi, heq⟩ := h.node t ht
      exact ⟨i, Nat.lt_succ_of_lt hi, heq⟩
    · exact ⟨s.mallocs, Nat.lt_succ_self _, List.mem_singleton.mp ht⟩
  · rw [hmallocs] at hi
    obtain ⟨j, hj, heq⟩ := h.node l (by simp)
    have hne : s.blocks i ≠ l := by
      rw [heq]
      intro heq
      have := h.injective heq
      omega
    rw [hblocks, hother _ hne]
    exact hwrite.zero i hi
  · rw [hname]
    rcases List.mem_append.mp ht with ht | ht
    · exact hwrite.ends t ht
    · rw [List.mem_singleton.mp ht, hblock]
      exact hfield
  · rw [List.map_append, List.map_singleton, hsymbol, hblock, ← hwrite.symbols]
    congr 1
    apply List.map_congr_left
    intro t _
    exact hsymbol t

/-- A list of one node. -/
theorem SymbolList.first {field : List.Vector UInt8 256} (h : SymbolList s [] [])
    (hfield : 0 ∈ field.toList) :
    SymbolList { s.write field function with symbolList := s.blocks s.mallocs }
      [s.blocks s.mallocs] [⟨cString field.toList, function⟩] := by
  have hwrite := h.write field function
  have hblock : (s.write field function).nodes (s.blocks s.mallocs) =
      { s.nodes (s.blocks s.mallocs) with name := field, function := function } :=
    Function.update_self ..
  refine ⟨h.nonnull, h.injective, ⟨rfl, ?_⟩, fun t ht => ?_, hwrite.zero, fun t ht => ?_, ?_⟩
  · simp only [hblock]
    exact h.zero s.mallocs le_rfl
  · exact ⟨s.mallocs, Nat.lt_succ_self _, List.mem_singleton.mp ht⟩
  · rw [List.mem_singleton.mp ht, hblock]
    exact hfield
  · rw [List.map_singleton, hblock]
    rfl

theorem addToSymbols_nil {name : List UInt8} (h : name.length < 256) :
    Elf.addToSymbols [] function name = .ok [⟨name, function⟩] :=
  if_neg (Nat.not_lt.mpr h)

theorem addToSymbols_cons {name : List UInt8} {first : Elf.FunctionSymbol} {rest : List Elf.FunctionSymbol}
    (h : name.length < 256) : Elf.addToSymbols (first :: rest) function name =
      if rest ≠ [] ∧ first.name = name then .ok (first :: rest)
      else .ok (first :: rest ++ [⟨name, function⟩]) :=
  if_neg (Nat.not_lt.mpr h)

/-- **Adding a symbol** to the nodes is adding it to the list that they hold. -/
theorem SymbolList.addToSymbols (h : SymbolList s ts symbols) (function : ℕ) (name : SymbolName)
    (hfuel : ts.length ≤ fuel) :
    ∃ s' ts' symbols', Symbols.addToSymbols fuel s function name.bytes = .ok s' ∧
      Elf.addToSymbols symbols function (cString name.bytes) = .ok symbols' ∧
      SymbolList s' ts' symbols' ∧ ts'.length ≤ ts.length + 1 := by
  obtain ⟨field, hcopy, hfield, hread⟩ := memcpyName_eq (s.nodes (s.blocks s.mallocs)).name name
  have hcall : Symbols.addToSymbols fuel s function name.bytes =
      if s.symbolList = 0 then .ok { s.write field function with symbolList := s.blocks s.mallocs }
      else addLoop (s.write field function) (s.blocks s.mallocs) ((cString name.bytes).length + 1)
        name.bytes fuel s.symbolList := by
    simp only [Symbols.addToSymbols, strlen_cString name.ends, bind, Except.bind]
    rw [hcopy]
    rfl
  have hwrite := h.write field function
  rw [hcall]
  rcases List.eq_nil_or_concat' ts with rfl | ⟨init, l, rfl⟩
  · -- the list is empty
    obtain rfl : symbols = [] := h.symbols.symm
    have hempty : s.symbolList = 0 := h.chain
    rw [if_pos hempty, addToSymbols_nil name.short, ← hread]
    exact ⟨_, _, _, rfl, rfl, h.first hfield, by simp⟩
  obtain ⟨first, rest, hts⟩ := List.exists_cons_of_ne_nil (List.concat_ne_nil l init)
  have hmem : first ∈ init ++ [l] := hts ▸ List.mem_cons_self ..
  have hfirst : s.symbolList = first := (hts ▸ h.chain).1
  have hsymbols : symbols = (s.nodes first).symbol :: rest.map fun t => (s.nodes t).symbol := by
    rw [← h.symbols, hts]
    rfl
  have hsame : (s.write field function).nodes first = s.nodes first :=
    Function.update_of_ne (h.fresh hmem) ..
  obtain ⟨order, horder, hiff⟩ := strncmp_cString (h.ends first hmem) name.ends
  obtain ⟨hinit, hend, hgo⟩ := hwrite.chain.before_last
    (hwrite.chain.nodup fun _ ht => h.node_ne_zero ht) fun _ ht => h.node_ne_zero ht
  rw [if_neg (hfirst ▸ h.node_ne_zero hmem), hsymbols, addToSymbols_cons name.short]
  simp only [ne_eq, List.map_eq_nil_iff]
  by_cases hdrop : rest ≠ [] ∧ (s.nodes first).symbol.name = cString name.bytes
  · -- the name of the first node is dropped, where a second node is there
    obtain ⟨hrest, heq⟩ := hdrop
    rw [if_pos ⟨hrest, heq⟩]
    refine ⟨_, init ++ [l], _, ?_, rfl, hsymbols ▸ hwrite, Nat.le_succ _⟩
    have hfirst_init : first ∈ init := by
      cases init with
      | nil => exact absurd (List.cons.inj hts).2.symm hrest
      | cons x init =>
        rw [(List.cons.inj hts).1]
        exact List.mem_cons_self ..
    obtain ⟨fuel, rfl⟩ : ∃ f, fuel = f + 1 := by
      cases fuel with
      | zero => simp at hfuel
      | succ f => exact ⟨f, rfl⟩
    have hnext := (hgo first hfirst_init).1
    rw [hfirst, addLoop, if_neg hnext]
    have hhead : (s.write field function).symbolList = first := hfirst
    rw [hhead, hsame, horder]
    simp only [bind, Except.bind, if_pos (hiff.mpr heq)]
  · -- the new node becomes the last one
    rw [if_neg hdrop]
    refine ⟨(s.write field function).setNode l
      { (s.write field function).nodes l with next := s.blocks s.mallocs },
      init ++ [l] ++ [s.blocks s.mallocs], _, ?_, rfl, ?_, ?_⟩
    · have hchain : Chain (fun t => ((s.write field function).nodes t).next) s.symbolList (init ++ [l]) 0 :=
        hwrite.chain
      apply addLoop_eq hchain
      · exact fun x hx => (hgo x hx).1
      · intro hne
        have hrest : rest ≠ [] := by
          rintro rfl
          have hlen := congrArg List.length hts
          have hpos := List.length_pos_iff.mpr hne
          simp only [List.length_append, List.length_cons, List.length_nil] at hlen
          omega
        refine ⟨order, ?_, fun hzero => hdrop ⟨hrest, hiff.mp hzero⟩⟩
        have hhead : (s.write field function).symbolList = first := hfirst
        rw [hhead, hsame, horder]
      · simp only [List.length_append, List.length_singleton] at hfuel
        omega
    · rw [← hread, ← hsymbols]
      exact h.link hfield
    · simp

/-! ## Searching -/

/-- **The search** on the nodes is the search in the list that they hold. -/
theorem searchLoop_eq (hname : 0 ∈ bs) {ts : List ℕ}
    (hchain : Chain (fun t => (s.nodes t).next) t ts 0) (hnonnull : ∀ x ∈ ts, x ≠ 0)
    (hends : ∀ x ∈ ts, 0 ∈ (s.nodes x).name.toList) (hfuel : ts.length < fuel) :
    searchLoop s ((cString bs).length + 1) bs fuel t =
      .ok (Elf.searchForModules (ts.map fun t => (s.nodes t).symbol) (cString bs)) := by
  induction ts generalizing t fuel with
  | nil =>
    obtain rfl : t = 0 := hchain
    obtain ⟨fuel, rfl⟩ := Nat.exists_eq_add_one_of_ne_zero (Nat.ne_of_gt hfuel)
    rfl
  | cons x ts ih =>
    obtain ⟨rfl, hrest⟩ := hchain
    obtain ⟨fuel, rfl⟩ := Nat.exists_eq_add_one_of_ne_zero (Nat.ne_zero_of_lt hfuel)
    obtain ⟨order, horder, hiff⟩ := strncmp_cString (hends t (List.mem_cons_self ..)) hname
    have hgo := ih hrest (fun y hy => hnonnull y (List.mem_cons_of_mem _ hy))
      (fun y hy => hends y (List.mem_cons_of_mem _ hy)) (Nat.lt_of_succ_lt_succ hfuel)
    rw [searchLoop, if_neg (hnonnull t (List.mem_cons_self ..)), horder]
    simp only [bind, Except.bind]
    by_cases hsame : order = 0
    · have hfound : (s.nodes t).symbol.name = cString bs := hiff.mp hsame
      rw [if_pos hsame, Elf.searchForModules, List.map_cons, List.find?_cons_of_pos (by simpa using hfound)]
      rfl
    · have hother : ¬ (s.nodes t).symbol.name = cString bs := fun heq => hsame (hiff.mpr heq)
      rw [if_neg hsame, hgo, Elf.searchForModules, Elf.searchForModules, List.map_cons,
        List.find?_cons_of_neg (by simpa using hother)]

theorem SymbolList.searchForModules (h : SymbolList s ts symbols) (hname : 0 ∈ bs)
    (hfuel : ts.length < fuel) :
    Symbols.searchForModules fuel s bs = .ok (Elf.searchForModules symbols (cString bs)) := by
  rw [Symbols.searchForModules]
  by_cases hempty : s.symbolList = 0
  · have hnil : ts = [] := by
      cases ts with
      | nil => rfl
      | cons x ts =>
        obtain ⟨hx, -⟩ := h.chain
        exact absurd (hx.symm.trans hempty) (h.node_ne_zero (List.mem_cons_self ..))
    rw [if_pos hempty, ← h.symbols, hnil]
    rfl
  · rw [if_neg hempty]
    simp only [strlen_cString hname, bind, Except.bind]
    rw [searchLoop_eq hname h.chain (fun _ ht => h.node_ne_zero ht) h.ends hfuel, h.symbols]

/-! ## The first definition of a name -/

/-- The function of the first call with a name, or the null pointer. -/
def firstFunction (calls : List (ℕ × SymbolName)) (name : List UInt8) : ℕ :=
  ((calls.find? fun c => cString c.2.bytes = name).map Prod.fst).getD 0

/-- Calls of `add_to_symbols`, one after the other. -/
def addAll (fuel : ℕ) (s : SymbolState) (calls : List (ℕ × SymbolName)) : Except Fault SymbolState :=
  calls.foldlM (fun s c => addToSymbols fuel s c.1 c.2.bytes) s

/-- A list of symbols answers as the first definitions do. -/
def FirstWins (symbols : List Elf.FunctionSymbol) (calls : List (ℕ × SymbolName)) : Prop :=
  ∀ name, (symbols.find? fun s => s.name = name).map Elf.FunctionSymbol.function =
    (calls.find? fun c => cString c.2.bytes = name).map Prod.fst

/-- **Step lemma**: a name that is dropped has a definition, and behind an older definition a new one is
not found. -/
theorem FirstWins.add {calls : List (ℕ × SymbolName)} {symbols' : List Elf.FunctionSymbol}
    (h : FirstWins symbols calls) (name : SymbolName)
    (hadd : Elf.addToSymbols symbols function (cString name.bytes) = .ok symbols') :
    FirstWins symbols' (calls ++ [(function, name)]) := by
  intro query
  -- an appended node answers what the older ones do not
  have happend : symbols' = symbols ++ [⟨cString name.bytes, function⟩] →
      (symbols'.find? fun s => s.name = query).map Elf.FunctionSymbol.function =
        ((calls ++ [(function, name)]).find? fun c => cString c.2.bytes = query).map Prod.fst := by
    rintro rfl
    have hold := h query
    rw [List.find?_append, List.find?_append]
    cases hfound : symbols.find? fun s => s.name = query with
    | some symbol =>
      rw [hfound] at hold
      obtain ⟨call, hcall, heq⟩ := Option.map_eq_some_iff.mp hold.symm
      rw [hcall]
      simpa using heq.symm
    | none =>
      rw [hfound] at hold
      have hnone := Option.map_eq_none_iff.mp hold.symm
      rw [hnone]
      by_cases hname : cString name.bytes = query
      · simp [hname]
      · simp [hname]
  cases symbols with
  | nil =>
    rw [addToSymbols_nil name.short] at hadd
    exact happend (Except.ok.inj hadd).symm
  | cons first rest =>
    rw [addToSymbols_cons name.short] at hadd
    split_ifs at hadd with hdrop
    · obtain rfl := Except.ok.inj hadd
      rw [h query, List.find?_append]
      cases hfound : calls.find? fun c => cString c.2.bytes = query with
      | some call => rfl
      | none =>
        -- the dropped name has a definition, so it is not the one asked for
        have hother : cString name.bytes ≠ query := by
          intro heq
          have hfirst := h query
          rw [hfound, List.find?_cons_of_pos (by simpa using hdrop.2.trans heq)] at hfirst
          exact absurd hfirst (by simp)
        simp [hother]
    · exact happend (Except.ok.inj hadd).symm

/-- Calls on the list of symbols, one after the other. -/
def addEach (symbols : List Elf.FunctionSymbol) (calls : List (ℕ × SymbolName)) :
    Except Elf.Fault (List Elf.FunctionSymbol) :=
  calls.foldlM (fun symbols c => Elf.addToSymbols symbols c.1 (cString c.2.bytes)) symbols

theorem addEach_cons {c : ℕ × SymbolName} {calls : List (ℕ × SymbolName)}
    {symbols₁ : List Elf.FunctionSymbol} (h : Elf.addToSymbols symbols c.1 (cString c.2.bytes) = .ok symbols₁) :
    addEach symbols (c :: calls) = addEach symbols₁ calls := by
  rw [addEach, List.foldlM_cons, h]
  rfl

/-- **Run lemma**: calls on the nodes are calls on the list that they hold. -/
theorem SymbolList.addAll (h : SymbolList s ts symbols) (calls : List (ℕ × SymbolName))
    (hfuel : ts.length + calls.length ≤ fuel) :
    ∃ s' ts' symbols', Symbols.addAll fuel s calls = .ok s' ∧ addEach symbols calls = .ok symbols' ∧
      SymbolList s' ts' symbols' ∧ ts'.length ≤ ts.length + calls.length := by
  induction calls generalizing s ts symbols with
  | nil => exact ⟨s, ts, symbols, rfl, rfl, h, le_rfl⟩
  | cons c calls ih =>
    rw [List.length_cons] at hfuel
    obtain ⟨s₁, ts₁, symbols₁, hcall, hadd, hnext, hlen⟩ :=
      h.addToSymbols c.1 c.2 (by omega : ts.length ≤ fuel)
    obtain ⟨s', ts', symbols', hrun, hlist, hholds, hlen'⟩ := ih hnext (by omega)
    refine ⟨s', ts', symbols', ?_, ?_, hholds, ?_⟩
    · rw [Symbols.addAll, List.foldlM_cons, hcall]
      exact hrun
    · rw [addEach_cons hadd]
      exact hlist
    · rw [List.length_cons]
      omega

/-- What a call keeps, calls keep. -/
theorem addEach_invariant {Inv : List Elf.FunctionSymbol → List (ℕ × SymbolName) → Prop}
    (hstep : ∀ symbols symbols' old (c : ℕ × SymbolName), Inv symbols old →
      Elf.addToSymbols symbols c.1 (cString c.2.bytes) = .ok symbols' → Inv symbols' (old ++ [c]))
    {symbols' : List Elf.FunctionSymbol} {old calls : List (ℕ × SymbolName)} (h : Inv symbols old)
    (hrun : addEach symbols calls = .ok symbols') : Inv symbols' (old ++ calls) := by
  induction calls generalizing symbols old with
  | nil =>
    obtain rfl := Except.ok.inj hrun
    rwa [List.append_nil]
  | cons c calls ih =>
    rw [addEach, List.foldlM_cons] at hrun
    obtain ⟨symbols₁, hadd, hrest⟩ := bind_eq_ok.mp hrun
    have hall := ih (hstep symbols symbols₁ old c h hadd) hrest
    rwa [List.append_assoc, List.singleton_append] at hall

/-- **The first definition wins**: after any calls of `add_to_symbols` the search for a name returns the
function of the first call with this name, and null if there was none. -/
theorem search_first_wins (h : Start s) (calls : List (ℕ × SymbolName)) {query : List UInt8}
    (hquery : 0 ∈ query) (hfuel : calls.length < fuel) :
    ∃ s', addAll fuel s calls = .ok s' ∧
      searchForModules fuel s' query = .ok (firstFunction calls (cString query)) := by
  have hempty : FirstWins [] [] := fun _ => rfl
  obtain ⟨s', ts, symbols, hrun, heach, hlist, hlen⟩ :=
    (SymbolList.start h).addAll calls (by simpa using Nat.le_of_lt hfuel)
  have hwins := addEach_invariant (fun _ _ _ c hold hadd => hold.add c.2 hadd) hempty heach
  rw [List.nil_append] at hwins
  rw [List.length_nil, Nat.zero_add] at hlen
  refine ⟨s', hrun, ?_⟩
  rw [hlist.searchForModules hquery (Nat.lt_of_le_of_lt hlen hfuel), firstFunction, ← hwins,
    Elf.searchForModules]
  cases symbols.find? fun s => s.name = cString query with
  | none => rfl
  | some symbol => rfl

/-- The kernel before `KernelInitializeSymbols`. -/
def emptySymbols : SymbolState where
  nodes _ := ⟨.replicate 256 0, 0, 0, 0⟩
  symbolList := 0
  blocks i := 0x1000 * (i + 1)
  mallocs := 0

theorem emptySymbols_start : Start emptySymbols where
  nonnull i := by
    change 0x1000 * (i + 1) ≠ 0
    omega
  injective i j h := by
    change 0x1000 * (i + 1) = 0x1000 * (j + 1) at h
    omega
  empty := rfl
  zero _ _ := rfl

/-- A name of one letter. -/
def letterName (c : UInt8) (h : c ≠ 0) : SymbolName where
  bytes := [c, 0]
  ends := by simp
  short := by
    rw [cString_cons h]
    simp

/-- The name `b` is defined twice. -/
theorem search_first_wins_twice :
    ∃ s', addAll 4 emptySymbols [(0x10, letterName 97 (by decide)), (0x20, letterName 98 (by decide)),
        (0x30, letterName 98 (by decide))] = .ok s' ∧
      searchForModules 4 s' [98, 0] = .ok 0x20 := by
  obtain ⟨s', hrun, hsearch⟩ := search_first_wins emptySymbols_start
    [(0x10, letterName 97 (by decide)), (0x20, letterName 98 (by decide)),
      (0x30, letterName 98 (by decide))] (by decide : (0 : UInt8) ∈ [98, 0]) (by decide : 3 < 4)
  exact ⟨s', hrun, hsearch⟩

end Cutesugar.Kernel.Symbols
