import Mathlib.Data.List.Nodup
import Mathlib.Data.List.Chain

/-!
# Linked lists threaded through a heap

A singly linked list is a function `next : ℕ → ℕ` on addresses. `Chain next a xs b` says that
following `next` from `a` visits exactly the nodes `xs`, in this order, and then stands at `b`.
`walk next stop fuel a` is the loop `while (!stop(a)) a = next(a)`: it returns the first node
that satisfies `stop`, or `none` when the fuel runs out first.
-/

namespace Cutesugar.Lib

/-! ## Chains -/

/-- Following `next` from `a` visits the nodes `xs` in order and then stands at `b`. -/
def Chain (next : ℕ → ℕ) : ℕ → List ℕ → ℕ → Prop
  | a, [], b => a = b
  | a, x :: xs, b => a = x ∧ Chain next (next x) xs b

/-- The loop `while (!stop(a)) a = next(a)`, with a bound on the number of rounds. -/
def walk (next : ℕ → ℕ) (stop : ℕ → Bool) : ℕ → ℕ → Option ℕ
  | 0, a => if stop a then some a else none
  | fuel + 1, a => if stop a then some a else walk next stop fuel (next a)

variable {next next' : ℕ → ℕ} {stop : ℕ → Bool} {a b c x fuel : ℕ} {xs ys : List ℕ}

@[simp] theorem chain_nil : Chain next a [] b ↔ a = b := Iff.rfl

@[simp] theorem chain_cons : Chain next a (x :: xs) b ↔ a = x ∧ Chain next (next x) xs b :=
  Iff.rfl

theorem chain_append :
    Chain next a (xs ++ ys) c ↔ ∃ b, Chain next a xs b ∧ Chain next b ys c := by
  induction xs generalizing a with
  | nil => simp
  | cons x xs ih => simp [ih, and_assoc]

/-- A chain depends on `next` at its own nodes only. -/
theorem Chain.congr (h : Chain next a xs b) (heq : ∀ x ∈ xs, next' x = next x) :
    Chain next' a xs b := by
  induction xs generalizing a with
  | nil => exact h
  | cons x xs ih =>
    obtain ⟨rfl, hrest⟩ := h
    refine ⟨rfl, ?_⟩
    rw [heq a (List.mem_cons_self ..)]
    exact ih hrest fun y hy => heq y (List.mem_cons_of_mem _ hy)

/-- Redirecting the last node of a chain moves the end of the chain. -/
theorem Chain.redirect (h : Chain next a (xs ++ [x]) b) (hx : x ∉ xs)
    (hnext : next' x = c) (heq : ∀ y ∈ xs, next' y = next y) : Chain next' a (xs ++ [x]) c := by
  obtain ⟨d, hxs, rfl, -⟩ := chain_append.mp h
  exact chain_append.mpr ⟨d, hxs.congr heq, rfl, hnext⟩

/-- A node behind the last one of a chain: the chain goes on to it and ends where it points. -/
theorem Chain.append_node (h : Chain next a (xs ++ [x]) b) (hx : x ∉ xs) (hlast : next' x = c)
    (heq : ∀ y ∈ xs, next' y = next y) : Chain next' a (xs ++ [x] ++ [c]) (next' c) :=
  chain_append.mpr ⟨c, h.redirect hx hlast heq, rfl, rfl⟩

/-- As many nodes from the same place are the same nodes. -/
theorem Chain.unique_of_length (h : Chain next a xs b) (h' : Chain next a ys c)
    (hlen : xs.length = ys.length) : xs = ys ∧ b = c := by
  induction xs generalizing a ys with
  | nil =>
    obtain rfl := List.eq_nil_of_length_eq_zero hlen.symm
    exact ⟨rfl, h.symm.trans h'⟩
  | cons x xs ih =>
    cases ys with
    | nil => exact absurd hlen (Nat.succ_ne_zero _)
    | cons y ys =>
      obtain ⟨rfl, hrest⟩ := h
      obtain ⟨rfl, hrest'⟩ := h'
      obtain ⟨rfl, heq⟩ := ih hrest hrest' (Nat.succ.inj hlen)
      exact ⟨rfl, heq⟩

/-- The longer of two chains from the same place goes on from the end of the shorter. -/
theorem Chain.extends (h : Chain next a xs b) (h' : Chain next a ys c)
    (hle : xs.length ≤ ys.length) : ∃ zs, ys = xs ++ zs ∧ Chain next b zs c := by
  induction xs generalizing a ys with
  | nil =>
    obtain rfl := h
    exact ⟨ys, rfl, h'⟩
  | cons x xs ih =>
    cases ys with
    | nil => exact absurd hle (by simp)
    | cons y ys =>
      obtain ⟨rfl, hrest⟩ := h
      obtain ⟨rfl, hrest'⟩ := h'
      obtain ⟨zs, rfl, hzs⟩ := ih hrest hrest' (Nat.le_of_succ_le_succ hle)
      exact ⟨zs, rfl, hzs⟩

/-- Where a chain without null nodes stands is a node of the list, unless it is the end. -/
theorem Chain.mem_list (h : Chain next a xs 0) (hxs : ∀ x ∈ xs, x ≠ 0) (h' : Chain next a ys b)
    (hys : ∀ y ∈ ys, y ≠ 0) (hb : b ≠ 0) : b ∈ xs := by
  rcases Nat.le_total ys.length xs.length with hle | hle
  · obtain ⟨zs, rfl, hzs⟩ := h'.extends h hle
    cases zs with
    | nil => exact absurd hzs hb
    | cons z zs =>
      obtain rfl := hzs.1
      exact List.mem_append_right _ (List.mem_cons_self ..)
  · obtain ⟨zs, rfl, hzs⟩ := h.extends h' hle
    cases zs with
    | nil => exact absurd hzs.symm hb
    | cons z zs =>
      exact absurd hzs.1.symm (hys z (List.mem_append_right _ (List.mem_cons_self ..)))

/-- A list that ends is determined by its first node. -/
theorem Chain.unique (h : Chain next a xs 0) (h' : Chain next a ys 0) (hxs : ∀ x ∈ xs, x ≠ 0)
    (hys : ∀ y ∈ ys, y ≠ 0) : xs = ys := by
  induction xs generalizing a ys with
  | nil =>
    obtain rfl := h
    cases ys with
    | nil => rfl
    | cons y ys => exact absurd h'.1.symm (hys y (List.mem_cons_self ..))
  | cons x xs ih =>
    obtain ⟨rfl, hrest⟩ := h
    cases ys with
    | nil => exact absurd h' (hxs a (List.mem_cons_self ..))
    | cons y ys =>
      obtain ⟨rfl, hrest'⟩ := h'
      rw [ih hrest hrest' (fun x hx => hxs x (List.mem_cons_of_mem _ hx))
        fun y hy => hys y (List.mem_cons_of_mem _ hy)]

/-- A list that ends visits no node twice. -/
theorem Chain.nodup (h : Chain next a xs 0) (hxs : ∀ x ∈ xs, x ≠ 0) : xs.Nodup := by
  induction xs generalizing a with
  | nil => exact List.nodup_nil
  | cons x xs ih =>
    obtain ⟨rfl, hrest⟩ := h
    have htail : ∀ y ∈ xs, y ≠ 0 := fun y hy => hxs y (List.mem_cons_of_mem _ hy)
    refine List.nodup_cons.mpr ⟨fun hmem => ?_, ih hrest htail⟩
    -- from the second visit on the list would be as long as from the first one
    obtain ⟨us, vs, hsplit⟩ := List.append_of_mem hmem
    rw [hsplit] at hrest htail
    obtain ⟨b, -, rfl, hvs⟩ := chain_append.mp hrest
    have hle : vs.length ≤ (us ++ b :: vs).length := by
      rw [List.length_append, List.length_cons]
      omega
    obtain ⟨zs, hlist, hzs⟩ := hvs.extends hrest hle
    cases zs with
    | nil =>
      have hlen := congrArg List.length hlist
      rw [List.append_nil, List.length_append, List.length_cons] at hlen
      omega
    | cons z zs =>
      obtain ⟨rfl, -⟩ := hzs
      exact htail 0 (hlist ▸ List.mem_append_right _ (List.mem_cons_self ..)) rfl

/-- In front of the last node of a chain of distinct nodes no link is null or leads back to the
first one. -/
theorem Chain.before_last (h : Chain next a (xs ++ [x]) b) (hnodup : (xs ++ [x]).Nodup)
    (hnonnull : ∀ y ∈ xs ++ [x], y ≠ 0) :
    Chain next a xs x ∧ next x = b ∧ ∀ y ∈ xs, next y ≠ 0 ∧ next y ≠ a := by
  obtain ⟨b, hinit, rfl, hend⟩ := chain_append.mp h
  refine ⟨hinit, hend, fun y hy => ?_⟩
  -- the node after `y` is a node of the chain and not its first one
  obtain ⟨us, vs, rfl⟩ := List.append_of_mem hy
  obtain ⟨c, hus, rfl, hvs⟩ := chain_append.mp hinit
  have hnext : next c ∈ vs ++ [b] := by
    cases vs with
    | nil => simpa using hvs
    | cons v vs => simp [hvs.1]
  refine ⟨hnonnull _ (by simpa using .inr (.inr (by simpa using hnext))), fun heq => ?_⟩
  rw [heq] at hnext
  rw [List.append_assoc, List.cons_append] at hnodup
  cases us with
  | nil =>
    obtain rfl : a = c := hus
    exact (List.nodup_cons.mp hnodup).1 hnext
  | cons u us =>
    rw [hus.1] at hnext
    exact (List.nodup_cons.mp hnodup).1 (List.mem_append_right us (List.mem_cons_of_mem c hnext))

/-! ## Walks -/

theorem walk_of_stop (h : stop a = true) : walk next stop fuel a = some a := by
  cases fuel <;> simp [walk, h]

theorem walk_succ_of_not_stop (h : stop a = false) :
    walk next stop (fuel + 1) a = walk next stop fuel (next a) := by
  simp [walk, h]

/-- What a walk returns satisfies the stop condition. -/
theorem stop_of_walk (h : walk next stop fuel a = some b) : stop b = true := by
  induction fuel generalizing a with
  | zero =>
    by_cases hs : stop a <;> simp [walk, hs] at h
    exact h ▸ hs
  | succ fuel ih =>
    by_cases hs : stop a
    · simp only [walk, hs, if_true, Option.some.injEq] at h
      exact h ▸ hs
    · simp only [walk, hs] at h
      exact ih (by simpa using h)

/-- A walk that returns does so with more fuel too. -/
theorem walk_mono {fuel' : ℕ} (h : walk next stop fuel a = some b) (hle : fuel ≤ fuel') :
    walk next stop fuel' a = some b := by
  induction fuel generalizing a fuel' with
  | zero =>
    by_cases hs : stop a = true
    · rw [walk, if_pos hs] at h
      rw [walk_of_stop hs, h]
    · rw [walk, if_neg hs] at h
      exact absurd h (by simp)
  | succ fuel ih =>
    obtain ⟨fuel', rfl⟩ : ∃ f, fuel' = f + 1 := ⟨fuel' - 1, by omega⟩
    by_cases hs : stop a = true
    · rw [walk, if_pos hs] at h
      rw [walk_of_stop hs, h]
    · rw [walk, if_neg hs] at h ⊢
      exact ih h (Nat.le_of_succ_le_succ hle)

/-- **Walk rule**: a walk over a chain none of whose nodes stops it, with the node after the
chain stopping it, returns that node; fuel for one round per node is enough. -/
theorem walk_of_chain (hchain : Chain next a xs b) (hstop : stop b = true)
    (hgo : ∀ x ∈ xs, stop x = false) (hfuel : xs.length ≤ fuel) :
    walk next stop fuel a = some b := by
  induction xs generalizing a fuel with
  | nil => obtain rfl := hchain; exact walk_of_stop hstop
  | cons x xs ih =>
    obtain ⟨rfl, hrest⟩ := hchain
    obtain ⟨fuel, rfl⟩ : ∃ f, fuel = f + 1 := ⟨fuel - 1, by simp at hfuel; omega⟩
    rw [walk_succ_of_not_stop (hgo a (List.mem_cons_self ..))]
    exact ih hrest (fun y hy => hgo y (List.mem_cons_of_mem _ hy)) (by simpa using hfuel)

/-- A walk that returns has visited a chain of nodes that do not stop it. -/
theorem chain_of_walk (h : walk next stop fuel a = some b) :
    ∃ xs, Chain next a xs b ∧ (∀ x ∈ xs, stop x = false) ∧ xs.length ≤ fuel := by
  induction fuel generalizing a with
  | zero =>
    by_cases hs : stop a <;> simp [walk, hs] at h
    exact ⟨[], h, by simp, by simp⟩
  | succ fuel ih =>
    by_cases hs : stop a
    · simp only [walk, hs, if_true, Option.some.injEq] at h
      exact ⟨[], h, by simp, by simp⟩
    · simp only [Bool.not_eq_true] at hs
      rw [walk_succ_of_not_stop hs] at h
      obtain ⟨xs, hchain, hgo, hlen⟩ := ih h
      exact ⟨a :: xs, ⟨rfl, hchain⟩, by simpa [hs] using hgo, by simpa using hlen⟩

/-- A walk that returns on a chain whose end is the first node to stop it returns this end. -/
theorem walk_eq_of_chain (h : walk next stop fuel a = some b) (hchain : Chain next a xs c)
    (hstop : stop c = true) (hgo : ∀ x ∈ xs, stop x = false) : b = c := by
  induction xs generalizing a fuel with
  | nil =>
    obtain rfl := hchain
    rw [walk_of_stop hstop] at h
    exact (Option.some.inj h).symm
  | cons x xs ih =>
    obtain ⟨rfl, hrest⟩ := hchain
    have hx := hgo a (List.mem_cons_self ..)
    cases fuel with
    | zero => simp [walk, hx] at h
    | succ fuel =>
      rw [walk_succ_of_not_stop hx] at h
      exact ih h hrest fun y hy => hgo y (List.mem_cons_of_mem _ hy)

/-- A walk over a chain with a node that stops it returns such a node. -/
theorem walk_finds (hchain : Chain next a xs b) (hx : x ∈ xs) (hstop : stop x = true)
    (hfuel : xs.length ≤ fuel) : ∃ y ∈ xs, walk next stop fuel a = some y ∧ stop y = true := by
  induction xs generalizing a fuel with
  | nil => exact absurd hx List.not_mem_nil
  | cons z xs ih =>
    obtain ⟨rfl, hrest⟩ := hchain
    cases ha : stop a with
    | true => exact ⟨a, List.mem_cons_self .., walk_of_stop ha, ha⟩
    | false =>
      have hmem : x ∈ xs := (List.mem_cons.mp hx).resolve_left fun heq => by
        rw [heq, ha] at hstop
        exact absurd hstop (by decide)
      cases fuel with
      | zero => simp at hfuel
      | succ fuel =>
        obtain ⟨y, hy, hwalk, hy'⟩ := ih hrest hmem (by simpa using hfuel)
        exact ⟨y, List.mem_cons_of_mem _ hy, by rw [walk_succ_of_not_stop ha, hwalk], hy'⟩

/-- A walk among nodes that lead to each other and do not stop it does not return. -/
theorem walk_eq_none (S : ℕ → Prop) (ha : S a) (hclosed : ∀ x, S x → S (next x))
    (hgo : ∀ x, S x → stop x = false) : walk next stop fuel a = none := by
  induction fuel generalizing a with
  | zero => simp [walk, hgo a ha]
  | succ fuel ih =>
    rw [walk_succ_of_not_stop (hgo a ha)]
    exact ih (hclosed a ha)

/-! ## Appending -/

/-- Append the node `x` to the list that starts at `head`: the new head and the new links. -/
def appendNode (fuel : ℕ) (next : ℕ → ℕ) (head x : ℕ) : Option (ℕ × (ℕ → ℕ)) :=
  if head = 0 then some (x, next)
  else (walk next (fun t => next t == 0) fuel head).map fun last =>
    (head, Function.update next last x)

/-- **Append rule**: the list goes on to the new node, and from there to wherever its link leads;
links outside of the list stay. -/
theorem appendNode_spec {head head' : ℕ} (hchain : Chain next head xs 0) (hnodup : xs.Nodup)
    (hnonnull : ∀ y ∈ xs, y ≠ 0) (hx : x ∉ xs)
    (h : appendNode fuel next head x = some (head', next')) :
    Chain next' head' (xs ++ [x]) (next x) ∧ ∀ y, y ∉ xs → next' y = next y := by
  rw [appendNode] at h
  split_ifs at h with hhead
  · -- the list was empty
    obtain ⟨rfl, rfl⟩ := Prod.mk.inj (Option.some.inj h)
    have hnil : xs = [] := by
      cases xs with
      | nil => rfl
      | cons y ys =>
        obtain ⟨rfl, -⟩ := hchain
        exact absurd hhead (hnonnull _ (List.mem_cons_self ..))
    subst hnil
    exact ⟨⟨rfl, rfl⟩, fun _ _ => rfl⟩
  · obtain ⟨last, hwalk, heq⟩ := Option.map_eq_some_iff.mp h
    obtain ⟨rfl, rfl⟩ := Prod.mk.inj heq
    rcases List.eq_nil_or_concat' xs with rfl | ⟨init, l, rfl⟩
    · exact absurd hchain hhead
    · obtain ⟨hinit, hend, hgo⟩ := hchain.before_last hnodup hnonnull
      obtain rfl : last = l := by
        apply walk_eq_of_chain hwalk hinit
        · rw [hend]
          rfl
        · exact fun y hy => beq_eq_false_iff_ne.mpr (hgo y hy).1
      have hlast : last ∉ init := fun hmem =>
        (List.nodup_append.mp hnodup).2.2 last hmem last (List.mem_singleton_self _) rfl
      have hne : x ≠ last := fun heq => hx (heq ▸ List.mem_append_right _ (List.mem_singleton_self _))
      constructor
      · have hother : ∀ y ∈ init, Function.update next last x y = next y := by
          intro y hy
          apply Function.update_of_ne
          rintro rfl
          exact hlast hy
        have happend : Chain (Function.update next last x) _ _ _ :=
          hchain.append_node hlast (Function.update_self ..) hother
        rwa [Function.update_of_ne hne] at happend
      · intro y hy
        apply Function.update_of_ne
        rintro rfl
        exact hy (List.mem_append_right _ (List.mem_singleton_self _))

/-- **Growth**: a list that ends after a node was appended has ended before and is longer now, and
if it is longer by that node only then the link of the node was null. -/
theorem appendNode_grows {head head' : ℕ} (hx : x ≠ 0)
    (h : appendNode fuel next head x = some (head', next')) (hchain : Chain next' head' ys 0)
    (hnonnull : ∀ y ∈ ys, y ≠ 0) :
    ∃ xs, Chain next head xs 0 ∧ (∀ y ∈ xs, y ≠ 0) ∧ xs.length < ys.length ∧
      (ys.length = xs.length + 1 → next x = 0) := by
  rw [appendNode] at h
  split_ifs at h with hhead
  · -- the list was empty
    obtain ⟨rfl, rfl⟩ := Prod.mk.inj (Option.some.inj h)
    refine ⟨[], hhead, by simp, ?_, fun hlen => ?_⟩
    · cases ys with
      | nil => exact absurd hchain hx
      | cons y ys => simp
    · obtain ⟨y, rfl⟩ := List.length_eq_one_iff.mp hlen
      obtain ⟨rfl, hend⟩ := hchain
      exact hend
  · obtain ⟨last, hwalk, heq⟩ := Option.map_eq_some_iff.mp h
    obtain ⟨rfl, rfl⟩ := Prod.mk.inj heq
    have hstop := stop_of_walk hwalk
    have hend : next last = 0 := beq_iff_eq.mp hstop
    obtain ⟨init, hinit, hgo, -⟩ := chain_of_walk hwalk
    have hgo' : ∀ y ∈ init, next y ≠ 0 := fun y hy => beq_eq_false_iff_ne.mp (hgo y hy)
    have hold : Chain next head (init ++ [last]) 0 := chain_append.mpr ⟨last, hinit, rfl, hend⟩
    -- the nodes in front of the last one lead on, so they are not the last one
    have hnew : Chain (Function.update next last x) head (init ++ [last]) x := by
      refine chain_append.mpr ⟨last, hinit.congr fun y hy => ?_, rfl, Function.update_self ..⟩
      have hne : y ≠ last := fun heq => hgo' y hy ((congrArg next heq).trans hend)
      exact Function.update_of_ne hne ..
    have hnodes : ∀ y ∈ init ++ [last], y ≠ 0 := by
      have hlink (n : ℕ) (a : ℕ) (ha : a ≠ 0) (zs : List ℕ) (hzs : Chain next a (zs ++ [last]) n)
          (hne : ∀ y ∈ zs, next y ≠ 0) : ∀ y ∈ zs ++ [last], y ≠ 0 := by
        induction zs generalizing a with
        | nil =>
          intro y hy
          rw [List.mem_singleton.mp hy, ← hzs.1]
          exact ha
        | cons z zs ih =>
          obtain ⟨rfl, hrest⟩ := hzs
          intro y hy
          rcases List.mem_cons.mp hy with rfl | hy
          · exact ha
          · exact ih _ (hne a (List.mem_cons_self ..)) hrest
              (fun y hy => hne y (List.mem_cons_of_mem _ hy)) y hy
      exact hlink 0 head hhead init hold hgo'
    rcases Nat.le_total (init ++ [last]).length ys.length with hle | hle
    · obtain ⟨zs, rfl, hzs⟩ := hnew.extends hchain hle
      cases zs with
      | nil => exact absurd hzs hx
      | cons z zs =>
        obtain ⟨rfl, hzs⟩ := hzs
        refine ⟨_, hold, hnodes, by simp, fun hlen => ?_⟩
        have hnil : zs = [] := by
          simp only [List.length_append, List.length_cons, List.length_nil] at hlen
          exact List.eq_nil_of_length_eq_zero (by omega)
        rw [hnil] at hzs
        rcases eq_or_ne x last with rfl | hne
        · exact absurd hzs (by simpa using hx)
        · simpa [hne] using hzs
    · -- a list that ends among the nodes before would have a null node
      obtain ⟨zs, hsplit, hzs⟩ := hchain.extends hnew hle
      cases zs with
      | nil => exact absurd hzs.symm hx
      | cons z zs =>
        refine absurd hzs.1.symm (hnodes z ?_)
        rw [hsplit]
        exact List.mem_append_right _ (List.mem_cons_self ..)

end Cutesugar.Lib
