import Cutesugar.Kernel.Misc.Symbols
import Mathlib.Data.List.Infix

/-!
# Names in the list of symbols (`kernel/misc/elf.c`)

`add_to_symbols` is meant to keep the names apart: it looks for the name on its way to the end of the list. But
what it compares there is the first node every time, and the last node is never asked. So a name is refused only
if it is that of the first node and a second node is there; any other name is appended again.

- `addName`: what a call does to the names.
- `UniqueAlong`: no two nodes have one name, throughout a run of calls.
- `symbols_unique_iff`: the runs in which this is so.
-/

namespace Cutesugar.Kernel.Symbols

open Lib Libc

/-! ## Names -/

section Names

variable {α : Type*} {names : List α} {name : α}

/-- Whatever name was there before is the first one, and another name was there too. -/
def RepeatsFirstOnly (names : List α) : Prop :=
  ∀ pre name, pre ++ [name] <+: names → name ∈ pre → pre.head? = some name ∧ ∃ other ∈ pre, other ≠ name

theorem RepeatsFirstOnly.nil : RepeatsFirstOnly ([] : List α) := by
  intro pre name hpre
  exact absurd (List.prefix_nil.mp hpre) (List.concat_ne_nil name pre)

theorem RepeatsFirstOnly.concat (h : RepeatsFirstOnly names)
    (hname : name ∈ names → names.head? = some name ∧ ∃ other ∈ names, other ≠ name) :
    RepeatsFirstOnly (names ++ [name]) := by
  intro pre name' hpre hmem
  rcases List.prefix_concat_iff.mp hpre with heq | hbefore
  · obtain ⟨rfl, hlast⟩ := List.append_inj' heq rfl
    obtain rfl := (List.cons.inj hlast).1
    exact hname hmem
  · exact h pre name' hbefore hmem

variable [DecidableEq α]

/-- What `add_to_symbols` does to the names of the list. -/
def addName (names : List α) (name : α) : List α :=
  match names with
  | [] => [name]
  | first :: rest => if rest ≠ [] ∧ first = name then names else names ++ [name]

/-- The names after calls, one after the other. -/
def addNames (names : List α) : List α := names.foldl addName []

/-- A call leaves the list as it is or appends the name. -/
theorem addName_eq (names : List α) (name : α) :
    (addName names name = names ∧ names.head? = some name ∧ ∃ other rest, names = name :: other :: rest) ∨
      addName names name = names ++ [name] := by
  cases names with
  | nil => exact .inr rfl
  | cons first rest =>
    simp only [addName]
    split_ifs with hdrop
    · obtain ⟨hrest, rfl⟩ := hdrop
      obtain ⟨other, rest, rfl⟩ := List.exists_cons_of_ne_nil hrest
      exact .inl ⟨rfl, rfl, other, rest, rfl⟩
    · exact .inr rfl

/-- A new name is appended. -/
theorem addName_of_notMem (h : name ∉ names) : addName names name = names ++ [name] := by
  rcases addName_eq names name with ⟨-, hhead, -⟩ | happend
  · exact absurd (List.mem_of_head? hhead) h
  · exact happend

/-- The first name is refused where there is a second one. -/
theorem addName_of_first (hhead : names.head? = some name) (hother : ∃ other ∈ names, other ≠ name) :
    addName names name = names := by
  obtain ⟨rest, rfl⟩ := List.head?_eq_some_iff.mp hhead
  obtain ⟨other, hmem, hne⟩ := hother
  have hrest : rest ≠ [] := List.ne_nil_of_mem ((List.mem_cons.mp hmem).resolve_left hne)
  exact if_pos ⟨hrest, rfl⟩

theorem addNames_concat (names : List α) (name : α) : addNames (names ++ [name]) = addName (addNames names) name :=
  List.foldl_concat ..

theorem mem_addName {x : α} : x ∈ addName names name ↔ x ∈ names ∨ x = name := by
  rcases addName_eq names name with ⟨hsame, hhead, -⟩ | happend
  · rw [hsame]
    constructor
    · exact .inl
    · rintro (hmem | rfl)
      · exact hmem
      · exact List.mem_of_head? hhead
  · rw [happend, List.mem_append, List.mem_singleton]

/-- The list has the names of the calls. -/
theorem mem_addNames {x : α} : x ∈ addNames names ↔ x ∈ names := by
  induction names using List.reverseRecOn with
  | nil => exact Iff.rfl
  | append_singleton names name ih => rw [addNames_concat, mem_addName, ih, List.mem_append, List.mem_singleton]

theorem head?_addName (h : names ≠ []) : (addName names name).head? = names.head? := by
  rcases addName_eq names name with ⟨hsame, -, -⟩ | happend
  · rw [hsame]
  · rw [happend, List.head?_append_of_ne_nil _ h]

/-- The first node is that of the first call. -/
theorem head?_addNames (names : List α) : (addNames names).head? = names.head? := by
  induction names using List.reverseRecOn with
  | nil => rfl
  | append_singleton names name ih =>
    rw [addNames_concat]
    rcases eq_or_ne names [] with rfl | hne
    · rfl
    · have hlist : addNames names ≠ [] := by
        obtain ⟨first, hfirst⟩ := List.exists_mem_of_ne_nil names hne
        exact List.ne_nil_of_mem (mem_addNames.mpr hfirst)
      rw [head?_addName hlist, ih, List.head?_append_of_ne_nil _ hne]

/-- **Step lemma**: names that are unique stay so exactly if a name that is there is the first of several. -/
theorem nodup_addName_iff (h : names.Nodup) : (addName names name).Nodup ↔
    (name ∈ names → names.head? = some name ∧ ∃ other ∈ names, other ≠ name) := by
  constructor
  · intro hnodup hmem
    rcases addName_eq names name with ⟨-, hhead, other, rest, rfl⟩ | happend
    · have hne : other ≠ name := fun heq => (List.nodup_cons.mp h).1 (heq ▸ List.mem_cons_self ..)
      exact ⟨hhead, other, by simp, hne⟩
    · rw [happend] at hnodup
      exact absurd rfl ((List.nodup_append.mp hnodup).2.2 name hmem name (List.mem_singleton_self name))
  · intro hfirst
    by_cases hmem : name ∈ names
    · obtain ⟨hhead, hother⟩ := hfirst hmem
      rw [addName_of_first hhead hother]
      exact h
    · rw [addName_of_notMem hmem]
      exact List.nodup_append.mpr ⟨h, List.nodup_singleton name, by
        rintro x hx y hy rfl
        exact hmem (List.mem_singleton.mp hy ▸ hx)⟩

/-- **Run lemma**: the names are unique throughout exactly if only the first one is repeated. -/
theorem nodup_addNames_iff :
    (∀ pre, pre <+: names → (addNames pre).Nodup) ↔ RepeatsFirstOnly names := by
  -- the condition on the names of the list is that on the names of the calls
  have hstep : ∀ (pre : List α) name, (addNames pre).Nodup → ((addNames (pre ++ [name])).Nodup ↔
      (name ∈ pre → pre.head? = some name ∧ ∃ other ∈ pre, other ≠ name)) := by
    intro pre name hnodup
    rw [addNames_concat, nodup_addName_iff hnodup, head?_addNames]
    simp only [mem_addNames]
  constructor
  · intro h pre name hpre
    exact (hstep pre name (h pre ((List.prefix_append pre [name]).trans hpre))).mp (h _ hpre)
  · intro h pre hpre
    induction pre using List.reverseRecOn with
    | nil => exact List.nodup_nil
    | append_singleton pre name ih =>
      have hbefore : (addNames pre).Nodup := ih ((List.prefix_append pre [name]).trans hpre)
      exact (hstep pre name hbefore).mpr (h pre name hpre)

end Names

/-! ## The list and its names -/

variable {s s' : SymbolState} {ts : List ℕ} {symbols symbols' : List Elf.FunctionSymbol} {fuel function : ℕ}
  {calls pre : List (ℕ × SymbolName)} {names names' : List (List UInt8)}

/-- The names of the nodes from `symbol_list` on. -/
def NodeNames (s : SymbolState) (names : List (List UInt8)) : Prop :=
  ∃ ts, Chain (fun t => (s.nodes t).next) s.symbolList ts 0 ∧ (∀ t ∈ ts, t ≠ 0) ∧
    ts.map (fun t => cString (s.nodes t).name.toList) = names

/-- The names of calls. -/
def callNames (calls : List (ℕ × SymbolName)) : List (List UInt8) := calls.map fun c => cString c.2.bytes

/-- **Names are unique along a run**: no two nodes ever have one name, and each call with a new name appends
one node, which has it. -/
structure UniqueAlong (fuel : ℕ) (s : SymbolState) (calls : List (ℕ × SymbolName)) : Prop where
  unique : ∀ pre, pre <+: calls → ∃ s' names, addAll fuel s pre = .ok s' ∧ NodeNames s' names ∧ names.Nodup
  appends : ∀ pre c, pre ++ [c] <+: calls → ∃ s₁ s₂ names, addAll fuel s pre = .ok s₁ ∧
    addToSymbols fuel s₁ c.1 c.2.bytes = .ok s₂ ∧ NodeNames s₁ names ∧
    (cString c.2.bytes ∉ names → NodeNames s₂ (names ++ [cString c.2.bytes]))

theorem NodeNames.unique (h : NodeNames s names) (h' : NodeNames s names') : names = names' := by
  obtain ⟨ts, hchain, hnonnull, rfl⟩ := h
  obtain ⟨ts', hchain', hnonnull', rfl⟩ := h'
  rw [hchain.unique hchain' hnonnull hnonnull']

theorem SymbolList.nodeNames (h : SymbolList s ts symbols) :
    NodeNames s (symbols.map Elf.FunctionSymbol.name) := by
  refine ⟨ts, h.chain, fun t ht => h.node_ne_zero ht, ?_⟩
  rw [← h.symbols, List.map_map]
  rfl

/-- **A call** does to the names what `addName` does. -/
theorem names_addToSymbols {name : List UInt8} (hshort : name.length < 256)
    (h : Elf.addToSymbols symbols function name = .ok symbols') :
    symbols'.map Elf.FunctionSymbol.name = addName (symbols.map Elf.FunctionSymbol.name) name := by
  cases symbols with
  | nil =>
    rw [addToSymbols_nil hshort] at h
    obtain rfl := Except.ok.inj h
    rfl
  | cons first rest =>
    have hempty : rest.map Elf.FunctionSymbol.name ≠ [] ↔ rest ≠ [] := List.map_eq_nil_iff.not
    rw [addToSymbols_cons hshort] at h
    simp only [List.map_cons, addName, hempty]
    split_ifs at h ⊢ with hdrop
    · obtain rfl := Except.ok.inj h
      rfl
    · obtain rfl := Except.ok.inj h
      rw [List.map_append]
      rfl

/-- **Calls** on an empty list leave the names that `addNames` says. -/
theorem addAll_nodeNames (h : Start s) (calls : List (ℕ × SymbolName)) (hfuel : calls.length ≤ fuel) :
    ∃ s' ts symbols, addAll fuel s calls = .ok s' ∧ SymbolList s' ts symbols ∧ ts.length ≤ calls.length ∧
      symbols.map Elf.FunctionSymbol.name = addNames (callNames calls) := by
  obtain ⟨s', ts, symbols, hrun, heach, hlist, hlen⟩ :=
    (SymbolList.start h).addAll calls (by simpa using hfuel)
  have hnames : ∀ symbols symbols' old (c : ℕ × SymbolName),
      symbols.map Elf.FunctionSymbol.name = addNames (callNames old) →
      Elf.addToSymbols symbols c.1 (cString c.2.bytes) = .ok symbols' →
      symbols'.map Elf.FunctionSymbol.name = addNames (callNames (old ++ [c])) := by
    intro symbols symbols' old c hold hadd
    rw [names_addToSymbols c.2.short hadd, hold, callNames, callNames, List.map_append, List.map_singleton,
      addNames_concat]
  have hempty : ([] : List Elf.FunctionSymbol).map Elf.FunctionSymbol.name = addNames (callNames []) := rfl
  have hall := addEach_invariant hnames hempty heach
  rw [List.nil_append] at hall
  rw [List.length_nil, Nat.zero_add] at hlen
  exact ⟨s', ts, symbols, hrun, hlist, hlen, hall⟩

/-- A run whose names are unique repeats the first one only. -/
theorem UniqueAlong.repeatsFirstOnly (hstart : Start s) (hfuel : calls.length ≤ fuel)
    (h : UniqueAlong fuel s calls) : RepeatsFirstOnly (callNames calls) := by
  apply nodup_addNames_iff.mp
  intro pre hpre
  obtain ⟨pre, hcalls, rfl⟩ := List.prefix_map_iff.mp hpre
  obtain ⟨s', names, hrun, hnames, hnodup⟩ := h.unique pre hcalls
  obtain ⟨s'', ts, symbols, hrun', hlist, -, hall⟩ := addAll_nodeNames hstart pre (hcalls.length_le.trans hfuel)
  obtain rfl := Except.ok.inj (hrun.symm.trans hrun')
  rw [hnames.unique hlist.nodeNames, hall] at hnodup
  exact hnodup

/-- A call with a new name appends its node, whatever the list is. -/
theorem SymbolList.appends (h : SymbolList s ts symbols) (c : ℕ × SymbolName) (hfuel : ts.length ≤ fuel)
    (hnew : cString c.2.bytes ∉ symbols.map Elf.FunctionSymbol.name) :
    ∃ s', Symbols.addToSymbols fuel s c.1 c.2.bytes = .ok s' ∧
      NodeNames s' (symbols.map Elf.FunctionSymbol.name ++ [cString c.2.bytes]) := by
  obtain ⟨s', ts', symbols', hcall, hadd, hlist, -⟩ := h.addToSymbols c.1 c.2 hfuel
  refine ⟨s', hcall, ?_⟩
  rw [← addName_of_notMem hnew, ← names_addToSymbols c.2.short hadd]
  exact hlist.nodeNames

/-- **Unique names**: no two nodes ever have one name exactly if the only name that is added again is the first
one, and this with another name in between. -/
theorem symbols_unique_iff (h : Start s) (calls : List (ℕ × SymbolName)) (hfuel : calls.length ≤ fuel) :
    UniqueAlong fuel s calls ↔ RepeatsFirstOnly (callNames calls) := by
  constructor
  · exact fun hunique => hunique.repeatsFirstOnly h hfuel
  · intro hrepeats
    refine { unique := fun pre hpre => ?_, appends := fun pre c hpre => ?_ }
    · obtain ⟨s', ts, symbols, hrun, hlist, -, hall⟩ := addAll_nodeNames h pre (hpre.length_le.trans hfuel)
      refine ⟨s', _, hrun, hlist.nodeNames, ?_⟩
      rw [hall]
      exact nodup_addNames_iff.mpr hrepeats _ (List.IsPrefix.map _ hpre)
    · have hlen := hpre.length_le
      rw [List.length_append, List.length_singleton] at hlen
      obtain ⟨s', ts, symbols, hrun, hlist, hts, -⟩ := addAll_nodeNames h pre (by omega : pre.length ≤ fuel)
      obtain ⟨s'', -, -, hcall, -⟩ := hlist.addToSymbols c.1 c.2 (by omega : ts.length ≤ fuel)
      refine ⟨s', s'', _, hrun, hcall, hlist.nodeNames, fun hnew => ?_⟩
      obtain ⟨s₂, hcall', hnames⟩ := hlist.appends c (by omega : ts.length ≤ fuel) hnew
      obtain rfl := Except.ok.inj (hcall.symm.trans hcall')
      exact hnames

/-- The name `a` is added again behind `b`. -/
theorem first_name_repeated : UniqueAlong 3 emptySymbols
    [(0x10, letterName 97 (by decide)), (0x20, letterName 98 (by decide)), (0x30, letterName 97 (by decide))] := by
  have hone : RepeatsFirstOnly [[(97 : UInt8)]] := RepeatsFirstOnly.nil.concat (by decide)
  have htwo : RepeatsFirstOnly [[(97 : UInt8)], [98]] := hone.concat (by decide)
  have hthree : RepeatsFirstOnly [[(97 : UInt8)], [98], [97]] := htwo.concat (by decide)
  exact (symbols_unique_iff emptySymbols_start _ (by decide)).mpr hthree

/-- The name `b` is added twice, and two nodes have it. -/
theorem second_name_repeated : ¬ UniqueAlong 3 emptySymbols
    [(0x10, letterName 97 (by decide)), (0x20, letterName 98 (by decide)), (0x30, letterName 98 (by decide))] := by
  intro h
  have hrepeats : RepeatsFirstOnly [[(97 : UInt8)], [98], [98]] := h.repeatsFirstOnly emptySymbols_start (by decide)
  obtain ⟨hfirst, -⟩ := hrepeats [[97], [98]] [98] (List.prefix_refl _) (by decide)
  exact absurd hfirst (by decide)

end Cutesugar.Kernel.Symbols
