import Cutesugar.Kernel.Object.Confinement
import Cutesugar.Kernel.Object.ListBuilders

/-!
# Removing a child (`kernel/object/directory.c`)

`DirectoryRemoveChild` has one branch for the first entry of the list and a loop for the others. Behind the
branch the loop starts at the entry that was just freed, and behind every entry that the loop unlinks it
goes on without a look at the next one.

- `unlinked`: what the loop leaves of the entries behind the first.
- `removeLoop_ok`, `removeLoop_returns`: the loop and `unlinked`.
- `directoryRemoveChild_iff`: the lists of which exactly the given object is removed.
-/

namespace Cutesugar.Kernel

open Lib

/-! ## Definitions -/

/-- What goes wrong on the way over a list. -/
inductive WalkFault where
  | null
  | freed
  | stuck
  deriving DecidableEq

/-- The entry that a pointer leads to, if it was not freed. -/
def entryAt (s : State) (freed : List ℕ) (t : ℕ) : Except WalkFault ObjectHeaderList :=
  if t = 0 then .error .null else if t ∈ freed then .error .freed else .ok (s.lists t)

/-- The loop of `DirectoryRemoveChild`, with the entries freed so far. -/
def removeLoop (object : ℕ) : ℕ → State → List ℕ → ℕ → Except WalkFault (State × List ℕ)
  | 0, _, _, _ => .error .stuck
  | fuel + 1, s, freed, traversal => do
    let entry ← entryAt s freed traversal
    if entry.next = 0 then .ok (s, freed)
    else do
      let next ← entryAt s freed entry.next
      if next.item = object then
        -- the entry behind the one removed is not compared
        let s := s.setList traversal { entry with next := next.next }
        removeLoop object fuel s (entry.next :: freed) next.next
      else removeLoop object fuel s freed entry.next

/-- `DirectoryRemoveChild`: the kernel and the entries that it freed. -/
def directoryRemoveChild (fuel : ℕ) (s : State) (directory object : ℕ) :
    Except WalkFault (State × List ℕ) :=
  if directory = 0 then .error .null
  else
    let traversal := (s.objects directory).headerList
    if traversal = 0 then .ok (s, [])
    else do
      let entry ← entryAt s [] traversal
      if entry.item = object then
        let s := s.setObject directory { s.objects directory with headerList := entry.next }
        -- the old element is freed here, and `traversal` still points to it
        removeLoop object fuel s [traversal] traversal
      else removeLoop object fuel s [] traversal

/-! ## Lists -/

section Lists

variable {α : Type} (remove : α → Bool)

/-- What is left of a list when every second neighbour is passed over, and nothing when the last one is to
be removed. -/
def unlinked : List α → Option (List α)
  | [] => some []
  | [b] => if remove b then none else some [b]
  | b :: c :: rest =>
    if remove b then (unlinked rest).map (c :: ·) else (unlinked (c :: rest)).map (b :: ·)

/-- No two neighbours are to be removed, and the last one is not. -/
def Separate (l : List α) : Prop :=
  (∀ x, l.getLast? = some x → ¬ remove x) ∧ l.IsChain fun x y => ¬ (remove x ∧ remove y)

variable {remove} {b c : α} {l rest : List α}

theorem separate_nil : Separate remove ([] : List α) := ⟨by simp, List.isChain_nil⟩

theorem separate_singleton : Separate remove [b] ↔ ¬ remove b := by
  simp [Separate]

theorem separate_cons_cons :
    Separate remove (b :: c :: rest) ↔ ¬ (remove b ∧ remove c) ∧ Separate remove (c :: rest) := by
  rw [Separate, Separate, List.getLast?_cons_cons, List.isChain_cons_cons]
  tauto

/-- In front of an element that stays everything may stand. -/
theorem separate_cons_of_not (hc : ¬ remove c) :
    Separate remove (c :: rest) ↔ Separate remove rest := by
  cases rest with
  | nil => exact iff_of_true (separate_singleton.mpr hc) separate_nil
  | cons d rest =>
    rw [separate_cons_cons]
    exact and_iff_right fun h => hc h.1

/-- **Exact removal**: what is left is the rest of the list without the elements to remove exactly if these
are apart from each other and from the end. -/
theorem unlinked_eq_filter_iff :
    unlinked remove l = some (l.filter fun x => !remove x) ↔ Separate remove l := by
  induction l using unlinked.induct remove with
  | case1 => exact iff_of_true rfl separate_nil
  | case2 b hb =>
    rw [unlinked, if_pos hb, separate_singleton]
    exact iff_of_false (by simp) (not_not.mpr hb)
  | case3 b hb =>
    rw [unlinked, if_neg hb, separate_singleton]
    exact iff_of_true (by simp [hb]) hb
  | case4 b c rest hb ih =>
    have hfilter : (b :: c :: rest).filter (fun x => !remove x) = (c :: rest).filter fun x => !remove x :=
      List.filter_cons_of_neg (by simp [hb])
    rw [unlinked, if_pos hb, separate_cons_cons, hfilter]
    by_cases hc : remove c
    · -- the neighbour is left
      refine iff_of_false (fun h => ?_) fun h => h.1 ⟨hb, hc⟩
      obtain ⟨ys, -, heq⟩ := Option.map_eq_some_iff.mp h
      have hmem : c ∈ (c :: rest).filter fun x => !remove x := heq ▸ List.mem_cons_self ..
      have hstays := (List.mem_filter.mp hmem).2
      rw [hc] at hstays
      exact absurd hstays (by decide)
    · rw [separate_cons_of_not hc, ← ih, List.filter_cons_of_pos (by simp [hc])]
      rw [and_iff_right fun h : _ ∧ _ => hc h.2]
      constructor
      · intro h
        obtain ⟨ys, hys, heq⟩ := Option.map_eq_some_iff.mp h
        rw [hys, (List.cons.inj heq).2]
      · intro h
        rw [h]
        rfl
  | case5 b c rest hb ih =>
    have hfilter : (b :: c :: rest).filter (fun x => !remove x) =
        b :: (c :: rest).filter fun x => !remove x :=
      List.filter_cons_of_pos (by simp [hb])
    rw [unlinked, if_neg hb, separate_cons_of_not hb, ← ih, hfilter]
    constructor
    · intro h
      obtain ⟨ys, hys, heq⟩ := Option.map_eq_some_iff.mp h
      rw [hys, (List.cons.inj heq).2]
    · intro h
      rw [h]
      rfl

/-- What is left are elements of the list. -/
theorem mem_of_unlinked {ys : List α} (h : unlinked remove l = some ys) : ∀ x ∈ ys, x ∈ l := by
  induction l using unlinked.induct remove generalizing ys with
  | case1 =>
    obtain rfl := Option.some.inj h
    exact fun x hx => hx
  | case2 b hb =>
    rw [unlinked, if_pos hb] at h
    cases h
  | case3 b hb =>
    rw [unlinked, if_neg hb] at h
    obtain rfl := Option.some.inj h
    exact fun x hx => hx
  | case4 b c rest hb ih =>
    rw [unlinked, if_pos hb] at h
    obtain ⟨zs, hzs, rfl⟩ := Option.map_eq_some_iff.mp h
    intro x hx
    rcases List.mem_cons.mp hx with rfl | hx
    · exact List.mem_cons_of_mem _ (List.mem_cons_self ..)
    · exact List.mem_cons_of_mem _ (List.mem_cons_of_mem _ (ih hzs x hx))
  | case5 b c rest hb ih =>
    rw [unlinked, if_neg hb] at h
    obtain ⟨zs, hzs, rfl⟩ := Option.map_eq_some_iff.mp h
    intro x hx
    rcases List.mem_cons.mp hx with rfl | hx
    · exact List.mem_cons_self ..
    · exact List.mem_cons_of_mem _ (ih hzs x hx)

theorem unlinked_cons_of_not (hb : ¬ remove b) :
    unlinked remove (b :: rest) = (unlinked remove rest).map (b :: ·) := by
  cases rest with
  | nil => exact if_neg hb
  | cons c rest => rw [unlinked, if_neg hb]

theorem unlinked_map {β : Type} (f : β → α) (l : List β) :
    unlinked remove (l.map f) = (unlinked (remove ∘ f) l).map (List.map f) := by
  induction l using unlinked.induct (remove ∘ f) with
  | case1 => rfl
  | case2 b hb =>
    have hb' : remove (f b) := hb
    simp only [List.map_cons, List.map_nil, unlinked, if_pos hb, if_pos hb', Option.map_none]
  | case3 b hb =>
    have hb' : ¬ remove (f b) := hb
    simp only [List.map_cons, List.map_nil, unlinked, if_neg hb, if_neg hb', Option.map_some]
  | case4 b c rest hb ih =>
    have hb' : remove (f b) := hb
    rw [List.map_cons, List.map_cons, unlinked, if_pos hb', ih, unlinked, if_pos hb, Option.map_map, Option.map_map]
    rfl
  | case5 b c rest hb ih =>
    have hb' : ¬ remove (f b) := hb
    rw [List.map_cons, unlinked_cons_of_not hb', ih, unlinked_cons_of_not hb, Option.map_map, Option.map_map]
    rfl

end Lists

/-! ## The loop -/

variable {s s' : State} {freed freed' rest nodes : List ℕ} {a b d o fuel : ℕ}

/-- The entries that the loop unlinks. -/
abbrev Matches (s : State) (o t : ℕ) : Bool := (s.lists t).item == o

/-- The loop stands at an entry, behind which there are others. -/
structure AtEntry (s : State) (freed : List ℕ) (a : ℕ) (rest : List ℕ) : Prop where
  chain : Chain s.nextEntry (s.nextEntry a) rest 0
  nodup : (a :: rest).Nodup
  nonnull : ∀ t ∈ a :: rest, t ≠ 0
  live : ∀ t ∈ a :: rest, t ∉ freed

theorem entryAt_of_live (ha : a ≠ 0) (hlive : a ∉ freed) : entryAt s freed a = .ok (s.lists a) := by
  rw [entryAt, if_neg ha, if_neg hlive]

/-- At the last entry the loop ends. -/
theorem removeLoop_last (h : AtEntry s freed a []) :
    removeLoop o (fuel + 1) s freed a = .ok (s, freed) := by
  have hnext : (s.lists a).next = 0 := h.chain
  rw [removeLoop, entryAt_of_live (h.nonnull a (List.mem_cons_self ..)) (h.live a (List.mem_cons_self ..))]
  simp only [bind, Except.bind, if_pos hnext]

/-- At any other entry the next one is looked at. -/
theorem removeLoop_next (h : AtEntry s freed a (b :: rest)) :
    removeLoop o (fuel + 1) s freed a =
      if (s.lists b).item = o then
        removeLoop o fuel (s.setList a { s.lists a with next := s.nextEntry b }) (b :: freed) (s.nextEntry b)
      else removeLoop o fuel s freed b := by
  have hb : (s.lists a).next = b := h.chain.1
  have hmem : b ∈ a :: b :: rest := List.mem_cons_of_mem _ (List.mem_cons_self ..)
  have hne : b ≠ 0 := h.nonnull b hmem
  rw [removeLoop, entryAt_of_live (h.nonnull a (List.mem_cons_self ..)) (h.live a (List.mem_cons_self ..))]
  simp only [bind, Except.bind, hb, if_neg hne, entryAt_of_live hne (h.live b hmem)]

/-- A loop that stands at the null pointer follows it. -/
theorem removeLoop_null (fuel : ℕ) (s : State) (freed : List ℕ) {r : State × List ℕ} :
    removeLoop o fuel s freed 0 ≠ .ok r := by
  cases fuel with
  | zero => simp [removeLoop]
  | succ fuel => simp [removeLoop, entryAt, bind, Except.bind]

/-- So does one that stands at an entry that was freed. -/
theorem removeLoop_freed (hmem : a ∈ freed) {r : State × List ℕ} :
    removeLoop o fuel s freed a ≠ .ok r := by
  cases fuel with
  | zero => simp [removeLoop]
  | succ fuel =>
    rw [removeLoop, entryAt, if_pos hmem]
    split_ifs
    · simp [bind, Except.bind]
    · simp [bind, Except.bind]

/-- An entry that stays is the next one that the loop stands at. -/
theorem AtEntry.step (h : AtEntry s freed a (b :: rest)) : AtEntry s freed b rest where
  chain := by
    obtain ⟨rfl, hrest⟩ := h.chain
    exact hrest
  nodup := (List.nodup_cons.mp h.nodup).2
  nonnull t ht := h.nonnull t (List.mem_cons_of_mem _ ht)
  live t ht := h.live t (List.mem_cons_of_mem _ ht)

/-- Behind an entry that is unlinked the loop stands at the one after it. -/
theorem AtEntry.unlink {c : ℕ} (h : AtEntry s freed a (b :: c :: rest)) :
    s.nextEntry b = c ∧ AtEntry (s.setList a { s.lists a with next := c }) (b :: freed) c rest := by
  obtain ⟨-, hc, hrest⟩ := h.chain
  obtain ⟨ha, hnodup⟩ := List.nodup_cons.mp h.nodup
  obtain ⟨hb, hnodup⟩ := List.nodup_cons.mp hnodup
  have hlinks : ∀ t ∈ c :: rest,
      (s.setList a { s.lists a with next := c }).nextEntry t = s.nextEntry t := by
    intro t ht
    have hne : t ≠ a := fun heq => ha (List.mem_cons_of_mem _ (heq ▸ ht))
    exact congrArg ObjectHeaderList.next (Function.update_of_ne hne ..)
  refine ⟨hc, ?_, hnodup, fun t ht => ?_, fun t ht hmem => ?_⟩
  · rw [hlinks c (List.mem_cons_self ..)]
    exact hrest.congr fun t ht => hlinks t (List.mem_cons_of_mem _ ht)
  · exact h.nonnull t (List.mem_cons_of_mem _ (List.mem_cons_of_mem _ ht))
  · rcases List.mem_cons.mp hmem with rfl | hmem
    · exact hb ht
    · exact h.live t (List.mem_cons_of_mem _ (List.mem_cons_of_mem _ ht)) hmem

/-- What the loop does to the entries: it leaves some of those behind the one it starts at. -/
structure Unlinks (s s' : State) (freed freed' : List ℕ) (a : ℕ) (rest left : List ℕ) : Prop where
  chain : Chain s'.nextEntry (s'.nextEntry a) left 0
  frame : ∀ t, t ≠ a → t ∉ rest → s'.lists t = s.lists t
  items : ∀ t, (s'.lists t).item = (s.lists t).item
  objects : s'.objects = s.objects
  freed : ∀ t ∈ freed', t ∈ freed ∨ t ∈ rest ∧ t ∉ left

theorem matches_setList (s : State) (a c o : ℕ) :
    Matches (s.setList a { s.lists a with next := c }) o = Matches s o :=
  funext fun t => congrArg (· == o) (item_setNext s.lists a c t)

/-- **The loop**, where it returns. -/
theorem removeLoop_ok (h : AtEntry s freed a rest) (hrun : removeLoop o fuel s freed a = .ok (s', freed')) :
    ∃ left, unlinked (Matches s o) rest = some left ∧ Unlinks s s' freed freed' a rest left := by
  induction fuel generalizing s freed a rest with
  | zero => cases hrun
  | succ fuel ih =>
    cases rest with
    | nil =>
      rw [removeLoop_last h] at hrun
      obtain ⟨rfl, rfl⟩ := Prod.mk.inj (Except.ok.inj hrun)
      exact ⟨[], rfl, h.chain, fun _ _ _ => rfl, fun _ => rfl, rfl, fun t ht => .inl ht⟩
    | cons b rest =>
      rw [removeLoop_next h] at hrun
      have hab : a ≠ b := fun heq => (List.nodup_cons.mp h.nodup).1 (heq ▸ List.mem_cons_self ..)
      split_ifs at hrun with hitem
      · -- the entry is unlinked, and the one behind it is passed over
        have hremove : Matches s o b := beq_iff_eq.mpr hitem
        cases rest with
        | nil =>
          -- behind the last entry the null pointer would be read
          have hend : s.nextEntry b = 0 := h.chain.2
          rw [hend] at hrun
          exact absurd hrun (removeLoop_null fuel _ _)
        | cons c rest =>
          obtain ⟨hc, hat⟩ := h.unlink
          rw [hc] at hrun
          obtain ⟨left, hleft, hdone⟩ := ih hat hrun
          rw [matches_setList] at hleft
          obtain ⟨ha, hnodup⟩ := List.nodup_cons.mp h.nodup
          obtain ⟨hb, hnodup⟩ := List.nodup_cons.mp hnodup
          have hac : a ≠ c := fun heq => ha (heq ▸ List.mem_cons_of_mem _ (List.mem_cons_self ..))
          have harest : a ∉ rest := fun hmem => ha (List.mem_cons_of_mem _ (List.mem_cons_of_mem _ hmem))
          have hlink : s'.nextEntry a = c := by
            have hself : (s.setList a { s.lists a with next := c }).lists a = { s.lists a with next := c } :=
              Function.update_self ..
            rw [State.nextEntry, hdone.frame a hac harest, hself]
          -- the entry behind stays, and nothing else of the list is changed before it
          refine ⟨c :: left, by rw [unlinked, if_pos hremove, hleft]; rfl, ?_, ?_, ?_, hdone.objects, ?_⟩
          · rw [hlink]
            exact ⟨rfl, hdone.chain⟩
          · intro t hta ht
            obtain ⟨-, ht⟩ := not_or.mp (List.mem_cons.not.mp ht)
            obtain ⟨htc, ht⟩ := not_or.mp (List.mem_cons.not.mp ht)
            rw [hdone.frame t htc ht]
            exact Function.update_of_ne hta ..
          · intro t
            rw [hdone.items t]
            exact item_setNext s.lists a c t
          · intro t ht
            rcases hdone.freed t ht with hmem | ⟨hmem, hnot⟩
            · rcases List.mem_cons.mp hmem with rfl | hmem
              · refine .inr ⟨List.mem_cons_self .., fun hmem => hb ?_⟩
                rcases List.mem_cons.mp hmem with rfl | hmem
                · exact List.mem_cons_self ..
                · exact List.mem_cons_of_mem _ (mem_of_unlinked hleft _ hmem)
              · exact .inl hmem
            · refine .inr ⟨List.mem_cons_of_mem _ (List.mem_cons_of_mem _ hmem), fun hmem' => ?_⟩
              rcases List.mem_cons.mp hmem' with rfl | hmem'
              · exact (List.nodup_cons.mp hnodup).1 hmem
              · exact hnot hmem'
      · -- the entry stays
        have hstays : ¬ Matches s o b := fun heq => hitem (beq_iff_eq.mp heq)
        obtain ⟨left, hleft, hdone⟩ := ih h.step hrun
        obtain ⟨ha, hnodup⟩ := List.nodup_cons.mp h.nodup
        have harest : a ∉ rest := fun hmem => ha (List.mem_cons_of_mem _ hmem)
        have hlink : s'.nextEntry a = b := by
          rw [State.nextEntry, hdone.frame a hab harest]
          exact h.chain.1
        refine ⟨b :: left, by rw [unlinked_cons_of_not hstays, hleft]; rfl, ?_, ?_, hdone.items,
          hdone.objects, ?_⟩
        · rw [hlink]
          exact ⟨rfl, hdone.chain⟩
        · intro t _ ht
          obtain ⟨htb, ht⟩ := not_or.mp (List.mem_cons.not.mp ht)
          exact hdone.frame t htb ht
        · intro t ht
          rcases hdone.freed t ht with hmem | ⟨hmem, hnot⟩
          · exact .inl hmem
          · refine .inr ⟨List.mem_cons_of_mem _ hmem, fun hmem' => ?_⟩
            rcases List.mem_cons.mp hmem' with rfl | hmem'
            · exact (List.nodup_cons.mp hnodup).1 hmem
            · exact hnot hmem'

/-- **The loop returns**, with a round for each entry, unless it unlinks the last one. -/
theorem removeLoop_returns (h : AtEntry s freed a rest) (hleft : (unlinked (Matches s o) rest).isSome)
    (hfuel : rest.length < fuel) : ∃ r, removeLoop o fuel s freed a = .ok r := by
  induction fuel generalizing s freed a rest with
  | zero => exact absurd hfuel (Nat.not_lt_zero _)
  | succ fuel ih =>
    cases rest with
    | nil => exact ⟨_, removeLoop_last h⟩
    | cons b rest =>
      rw [List.length_cons] at hfuel
      rw [removeLoop_next h]
      split_ifs with hitem
      · have hremove : Matches s o b := beq_iff_eq.mpr hitem
        cases rest with
        | nil =>
          rw [unlinked, if_pos hremove] at hleft
          cases hleft
        | cons c rest =>
          obtain ⟨hc, hat⟩ := h.unlink
          rw [unlinked, if_pos hremove, Option.isSome_map, ← matches_setList s a c o] at hleft
          rw [hc]
          rw [List.length_cons] at hfuel
          exact ih hat hleft (by omega)
      · have hstays : ¬ Matches s o b := fun heq => hitem (beq_iff_eq.mp heq)
        rw [unlinked_cons_of_not hstays, Option.isSome_map] at hleft
        exact ih h.step hleft (by omega)

/-! ## Removal -/

/-- The list of a directory has the given objects, and none of its entries was freed. -/
def Children (s : State) (freed : List ℕ) (d : ℕ) (objects : List ℕ) : Prop :=
  ∃ nodes, Chain s.nextEntry (s.objects d).headerList nodes 0 ∧ (∀ t ∈ nodes, t ≠ 0 ∧ t ∉ freed) ∧
    nodes.map (fun t => (s.lists t).item) = objects

/-- The call returns, on its way it follows no entry that is null or freed, and the objects left are the
others in the same order. -/
def RemovesExactly (s : State) (d o : ℕ) (objects : List ℕ) : Prop :=
  ∃ fuel s' freed, directoryRemoveChild fuel s d o = .ok (s', freed) ∧
    Children s' freed d (objects.filter fun x => !(x == o))

/-- The object is neither the first nor the last one, and no two neighbours are this object. -/
def Isolated (o : ℕ) (objects : List ℕ) : Prop :=
  objects.head? ≠ some o ∧ Separate (· == o) objects

variable {objects : List ℕ}

/-- **Exact removal**: of a directory with any list of children exactly the given object is removed if and
only if every occurrence of it is between two others. -/
theorem directoryRemoveChild_iff (hd : d ≠ 0) (h : Children s [] d objects) :
    RemovesExactly s d o objects ↔ Isolated o objects := by
  obtain ⟨nodes, hchain, hnodes, rfl⟩ := h
  cases nodes with
  | nil =>
    -- an empty list is left as it is
    have hlist : (s.objects d).headerList = 0 := hchain
    refine iff_of_true ⟨0, s, [], ?_, [], hchain, by simp, rfl⟩ ⟨by simp, separate_nil⟩
    rw [directoryRemoveChild, if_neg hd]
    exact if_pos hlist
  | cons a rest =>
    obtain ⟨hlist, hrest⟩ := hchain
    have hnonnull : ∀ t ∈ a :: rest, t ≠ 0 := fun t ht => (hnodes t ht).1
    have ha : a ≠ 0 := hnonnull a (List.mem_cons_self ..)
    rw [List.map_cons]
    by_cases hitem : (s.lists a).item = o
    · -- the first entry is freed, and the loop reads it
      refine iff_of_false ?_ fun h => h.1 (congrArg some hitem)
      rintro ⟨fuel, s', freed, hrun, -⟩
      rw [directoryRemoveChild, if_neg hd] at hrun
      simp only [hlist, if_neg ha, entryAt_of_live ha List.not_mem_nil, bind, Except.bind, if_pos hitem] at hrun
      exact removeLoop_freed (List.mem_singleton_self a) hrun
    · have hrun (fuel : ℕ) : directoryRemoveChild fuel s d o = removeLoop o fuel s [] a := by
        rw [directoryRemoveChild, if_neg hd]
        simp only [hlist, if_neg ha, entryAt_of_live ha List.not_mem_nil, bind, Except.bind, if_neg hitem]
      have hnodup : (a :: rest).Nodup := by
        have hfirst : Chain s.nextEntry a (a :: rest) 0 := ⟨rfl, hrest⟩
        exact hfirst.nodup hnonnull
      have hat : AtEntry s [] a rest := ⟨hrest, hnodup, hnonnull, fun t _ => List.not_mem_nil⟩
      have hstays : ¬ ((s.lists a).item == o) := fun heq => hitem (beq_iff_eq.mp heq)
      have hmap : unlinked (· == o) (rest.map fun t => (s.lists t).item) = _ := unlinked_map _ rest
      have hfilter : unlinked (· == o) (rest.map fun t => (s.lists t).item) = some _ ↔
          Separate (· == o) (rest.map fun t => (s.lists t).item) := unlinked_eq_filter_iff
      have hcons : Separate (· == o) ((s.lists a).item :: rest.map fun t => (s.lists t).item) ↔
          Separate (· == o) (rest.map fun t => (s.lists t).item) := separate_cons_of_not hstays
      rw [hmap] at hfilter
      have hisolated : Isolated o ((s.lists a).item :: rest.map fun t => (s.lists t).item) ↔
          Separate (· == o) (rest.map fun t => (s.lists t).item) := by
        rw [Isolated, hcons]
        exact and_iff_right fun heq => hitem (Option.some.inj heq)
      rw [hisolated, ← hfilter]
      constructor
      · rintro ⟨fuel, s', freed, hok, nodes, hnew, hlive, hobjects⟩
        rw [hrun] at hok
        obtain ⟨left, hleft, hdone⟩ := removeLoop_ok hat hok
        rw [hdone.objects, hlist] at hnew
        -- the list left is the one that the loop makes
        have hmade : Chain s'.nextEntry a (a :: left) 0 := ⟨rfl, hdone.chain⟩
        obtain rfl := hmade.unique hnew (fun t ht => hnonnull t (by
          rcases List.mem_cons.mp ht with rfl | ht
          · exact List.mem_cons_self ..
          · exact List.mem_cons_of_mem _ (mem_of_unlinked hleft t ht))) fun t ht => (hlive t ht).1
        simp only [hdone.items] at hobjects
        rw [List.map_cons, List.filter_cons_of_pos (by simpa using hitem)] at hobjects
        have hcompose : unlinked ((· == o) ∘ fun t => (s.lists t).item) rest = some left := hleft
        rw [hcompose, Option.map_some, (List.cons.inj hobjects).2]
      · intro hsome
        have hleft : (unlinked (Matches s o) rest).isSome := by
          obtain ⟨left, hleft, -⟩ := Option.map_eq_some_iff.mp hsome
          exact Option.isSome_iff_exists.mpr ⟨left, hleft⟩
        obtain ⟨⟨s', freed⟩, hok⟩ := removeLoop_returns hat hleft (Nat.lt_succ_self _)
        obtain ⟨left, hleft, hdone⟩ := removeLoop_ok hat hok
        have hcompose : unlinked ((· == o) ∘ fun t => (s.lists t).item) rest = some left := hleft
        rw [hcompose, Option.map_some] at hsome
        refine ⟨_, s', freed, (hrun _).trans hok, a :: left, ?_, fun t ht => ⟨?_, fun hmem => ?_⟩, ?_⟩
        · rw [hdone.objects, hlist]
          exact ⟨rfl, hdone.chain⟩
        · rcases List.mem_cons.mp ht with rfl | ht
          · exact ha
          · exact hnonnull t (List.mem_cons_of_mem _ (mem_of_unlinked hleft t ht))
        · rcases hdone.freed t hmem with hmem | ⟨hmem, hnot⟩
          · exact absurd hmem List.not_mem_nil
          · rcases List.mem_cons.mp ht with rfl | ht
            · exact (List.nodup_cons.mp hnodup).1 hmem
            · exact hnot ht
        · simp only [hdone.items]
          rw [List.map_cons, List.filter_cons_of_pos (by simpa using hitem), Option.some.inj hsome]

/-- A directory with three children. -/
def threeChildren : State :=
  (bootDirectories.setList 0x1300 ⟨0x1500, 0x1700⟩).setList 0x1700 ⟨0x1600, 0⟩

theorem children_threeChildren : Children threeChildren [] 0x1000 [0x1200, 0x1500, 0x1600] :=
  ⟨[0x1100, 0x1300, 0x1700], ⟨rfl, rfl, rfl, rfl⟩, by decide, rfl⟩

/-- The one in the middle is removed. -/
theorem middle_removed : RemovesExactly threeChildren 0x1000 0x1500 [0x1200, 0x1500, 0x1600] := by
  refine (directoryRemoveChild_iff (by decide) children_threeChildren).mpr ⟨by decide, fun x hx => ?_, ?_⟩
  · obtain rfl := Option.some.inj hx
    decide
  · simp

/-- The first one is freed and then read. -/
theorem first_not_removed : ¬ RemovesExactly threeChildren 0x1000 0x1200 [0x1200, 0x1500, 0x1600] := by
  rintro ⟨fuel, s', freed, hrun, -⟩
  have hread : directoryRemoveChild fuel threeChildren 0x1000 0x1200 = removeLoop 0x1200 fuel
      (threeChildren.setObject 0x1000 { threeChildren.objects 0x1000 with headerList := 0x1300 })
      [0x1100] 0x1100 := rfl
  rw [hread] at hrun
  exact removeLoop_freed (List.mem_singleton_self _) hrun

end Cutesugar.Kernel
