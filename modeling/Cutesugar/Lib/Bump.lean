import Mathlib.Data.List.Basic
import Mathlib.Order.Nat

/-!
# Bump allocation

Requests fall in classes, and a page serves one class: its blocks are handed out in order until
it has given out as many as the capacity of the class says, and the next request of the class
takes a new page. Pages are numbered in the order in which they are taken.

- `Bump.place`: the page and the block the next request of a class gets.
- `Bump.serve`, `Bump.serveAll`: one request, and requests one after another.
- `Bump.Tidy`: the invariant; every page is the current one of a class or was used up.
-/

namespace Cutesugar.Lib

/-- Block `index` of page number `page`, handed out for a request. -/
structure Grant (ρ : Type*) where
  page : ℕ
  index : ℕ
  request : ρ

/-- The page each class is served from with the number of blocks it has given out, the number of
pages taken and what was handed out so far, the latest first. -/
structure Bump (κ ρ : Type*) where
  current : κ → Option (ℕ × ℕ)
  taken : ℕ
  grants : List (Grant ρ)

namespace Bump

variable {κ ρ : Type*}

/-- Before the first request. -/
def start : Bump κ ρ where
  current _ := none
  taken := 0
  grants := []

section Serve

variable (cls : ρ → κ) (capacity : κ → ℕ)

/-- Where the next request of class `k` is served: behind the blocks the current page has given
out, or at the start of a new page when there is none or it is used up. -/
def place (b : Bump κ ρ) (k : κ) : ℕ × ℕ :=
  match b.current k with
  | some (page, given) => if given < capacity k then (page, given) else (b.taken, 0)
  | none => (b.taken, 0)

/-- Serve one request. -/
def serve [DecidableEq κ] (b : Bump κ ρ) (r : ρ) : Bump κ ρ :=
  let (page, index) := b.place capacity (cls r)
  { current := Function.update b.current (cls r) (some (page, index + 1))
    taken := if page = b.taken then b.taken + 1 else b.taken
    grants := ⟨page, index, r⟩ :: b.grants }

/-- Serve the requests one after another. -/
def serveAll [DecidableEq κ] (b : Bump κ ρ) (rs : List ρ) : Bump κ ρ := rs.foldl (serve cls capacity) b

/-- Block `index` of page `page` was handed out for a request of class `k`. -/
def Granted (b : Bump κ ρ) (k : κ) (page index : ℕ) : Prop :=
  ∃ g ∈ b.grants, g.page = page ∧ g.index = index ∧ cls g.request = k

/-- The current page of a class has given out its first blocks, no page is current for two
classes, and a page that is not current has given out every block it has. -/
structure Tidy (b : Bump κ ρ) : Prop where
  current : ∀ k page given, b.current k = some (page, given) →
    page < b.taken ∧ 0 < given ∧ given ≤ capacity k ∧ ∀ t < given, b.Granted cls k page t
  apart : ∀ k k' page given given', b.current k = some (page, given) →
    b.current k' = some (page, given') → k = k'
  owner : ∀ page < b.taken, ∃ k, 0 < capacity k ∧
    ((∃ given, b.current k = some (page, given)) ∨ ∀ t < capacity k, b.Granted cls k page t)

end Serve

section Lemmas

variable {cls : ρ → κ} {capacity : κ → ℕ} {b : Bump κ ρ} {k : κ} {page index given : ℕ} {r : ρ}

/-- The current page serves while it has a block left. -/
theorem place_of_room (h : b.current k = some (page, given)) (hlt : given < capacity k) :
    b.place capacity k = (page, given) := by
  simp [place, h, hlt]

/-- A new page serves when no current page has a block left. -/
theorem place_of_full
    (h : ∀ page given, b.current k = some (page, given) → capacity k ≤ given) :
    b.place capacity k = (b.taken, 0) := by
  unfold place
  cases hcur : b.current k with
  | none => rfl
  | some c => exact if_neg (h c.1 c.2 hcur).not_gt

/-- The two ways of serving a request. -/
theorem place_cases (b : Bump κ ρ) (capacity : κ → ℕ) (k : κ) :
    (∃ page given, b.current k = some (page, given) ∧ given < capacity k ∧
      b.place capacity k = (page, given)) ∨
    ((∀ page given, b.current k = some (page, given) → capacity k ≤ given) ∧
      b.place capacity k = (b.taken, 0)) := by
  by_cases hroom : ∃ page given, b.current k = some (page, given) ∧ given < capacity k
  · obtain ⟨page, given, hcur, hlt⟩ := hroom
    exact .inl ⟨page, given, hcur, hlt, place_of_room hcur hlt⟩
  · have hfull : ∀ page given, b.current k = some (page, given) → capacity k ≤ given := by
      intro page given hcur
      by_contra hlt
      exact hroom ⟨page, given, hcur, by omega⟩
    exact .inr ⟨hfull, place_of_full hfull⟩

theorem tidy_start : (start : Bump κ ρ).Tidy cls capacity where
  current _ _ _ h := absurd h (by simp [start])
  apart _ _ _ _ _ h := absurd h (by simp [start])
  owner _ h := absurd h (Nat.not_lt_zero _)

/-- The page a request is served from: it is the current page of the class with the blocks before
the new one handed out, or it is a new page. -/
theorem Tidy.place (h : b.Tidy cls capacity) (hcap : 0 < capacity k)
    (hplace : b.place capacity k = (page, index)) :
    page ≤ b.taken ∧ index < capacity k ∧ (∀ t < index, b.Granted cls k page t) ∧
      ∀ k' given, b.current k' = some (page, given) → k' = k := by
  rcases place_cases b capacity k with ⟨page', given, hcur, hlt, heq⟩ | ⟨-, heq⟩
  · obtain ⟨rfl, rfl⟩ := Prod.mk.inj (heq.symm.trans hplace)
    obtain ⟨hpage, -, -, hgranted⟩ := h.current k page' given hcur
    exact ⟨hpage.le, hlt, hgranted, fun k' given' hcur' => h.apart k' k page' given' given hcur' hcur⟩
  · obtain ⟨rfl, rfl⟩ := Prod.mk.inj (heq.symm.trans hplace)
    refine ⟨le_rfl, hcap, fun t ht => absurd ht (Nat.not_lt_zero t), fun k' given hcur => ?_⟩
    -- no class is served from a page that was not taken yet
    exact absurd (h.current k' b.taken given hcur).1 (lt_irrefl _)

/-- A page that is not current for any class with a block left has given out all its blocks. -/
theorem Tidy.used_up (h : b.Tidy cls capacity) (hpage : page < b.taken)
    (hnone : ∀ k given, b.current k = some (page, given) → capacity k ≤ given) :
    ∃ k, 0 < capacity k ∧ ∀ t < capacity k, b.Granted cls k page t := by
  obtain ⟨k, hpos, ⟨given, hcur⟩ | hall⟩ := h.owner page hpage
  · have hfull := hnone k given hcur
    exact ⟨k, hpos, fun t ht => (h.current k page given hcur).2.2.2 t (by omega)⟩
  · exact ⟨k, hpos, hall⟩

variable [DecidableEq κ]

@[simp] theorem serve_grants :
    (b.serve cls capacity r).grants =
      ⟨(b.place capacity (cls r)).1, (b.place capacity (cls r)).2, r⟩ :: b.grants := rfl

@[simp] theorem serve_current_self :
    (b.serve cls capacity r).current (cls r) =
      some ((b.place capacity (cls r)).1, (b.place capacity (cls r)).2 + 1) :=
  Function.update_self ..

@[simp] theorem serve_current_of_ne (h : k ≠ cls r) :
    (b.serve cls capacity r).current k = b.current k :=
  Function.update_of_ne h ..

theorem serve_taken_of_place (h : b.place capacity (cls r) = (page, index)) :
    (b.serve cls capacity r).taken = if page = b.taken then b.taken + 1 else b.taken := by
  simp [serve, h]

/-- Pages taken stay taken. -/
theorem taken_le_serve : b.taken ≤ (b.serve cls capacity r).taken := by
  rw [serve_taken_of_place rfl]
  split_ifs
  · exact Nat.le_succ _
  · exact le_rfl

@[simp] theorem serveAll_nil : b.serveAll cls capacity [] = b := rfl

@[simp] theorem serveAll_cons (rs : List ρ) :
    b.serveAll cls capacity (r :: rs) = (b.serve cls capacity r).serveAll cls capacity rs := rfl

/-- What was handed out stays handed out. -/
theorem Granted.serve (h : b.Granted cls k page index) :
    (b.serve cls capacity r).Granted cls k page index := by
  obtain ⟨g, hg, hplace⟩ := h
  exact ⟨g, List.mem_cons_of_mem _ hg, hplace⟩

/-- The request served gets its place. -/
theorem granted_serve (h : b.place capacity (cls r) = (page, index)) :
    (b.serve cls capacity r).Granted cls (cls r) page index := by
  refine ⟨⟨page, index, r⟩, ?_, rfl, rfl, rfl⟩
  simp [h]

/-- **Step lemma**: serving a request keeps the allocator tidy. -/
theorem Tidy.serve (h : b.Tidy cls capacity) (hcap : 0 < capacity (cls r)) :
    (b.serve cls capacity r).Tidy cls capacity := by
  obtain ⟨page, index, hplace⟩ : ∃ page index, b.place capacity (cls r) = (page, index) :=
    ⟨_, _, rfl⟩
  obtain ⟨hpage, hindex, hgranted, honly⟩ := h.place hcap hplace
  have hself : (b.serve cls capacity r).current (cls r) = some (page, index + 1) := by
    rw [serve_current_self, hplace]
  have hlt : page < (b.serve cls capacity r).taken := by
    rw [serve_taken_of_place hplace]
    split_ifs with heq
    · omega
    · omega
  constructor
  · intro k page' given hcur
    by_cases hk : k = cls r
    · subst hk
      rw [hself] at hcur
      obtain ⟨rfl, rfl⟩ := Prod.mk.inj (Option.some.inj hcur)
      refine ⟨hlt, Nat.succ_pos _, hindex, fun t ht => ?_⟩
      rcases Nat.lt_succ_iff_lt_or_eq.mp ht with ht | rfl
      · exact (hgranted t ht).serve
      · exact granted_serve hplace
    · rw [serve_current_of_ne hk] at hcur
      obtain ⟨hpage', hpos, hle, hgranted'⟩ := h.current k page' given hcur
      exact ⟨hpage'.trans_le taken_le_serve, hpos, hle, fun t ht => (hgranted' t ht).serve⟩
  · intro k k' page' given given' hcur hcur'
    by_cases hk : k = cls r
    · subst hk
      rw [hself] at hcur
      obtain ⟨rfl, -⟩ := Prod.mk.inj (Option.some.inj hcur)
      by_contra hne
      rw [serve_current_of_ne fun heq => hne heq.symm] at hcur'
      exact hne (honly k' given' hcur').symm
    · rw [serve_current_of_ne hk] at hcur
      by_cases hk' : k' = cls r
      · subst hk'
        rw [hself] at hcur'
        obtain ⟨rfl, -⟩ := Prod.mk.inj (Option.some.inj hcur')
        exact honly k given hcur
      · rw [serve_current_of_ne hk'] at hcur'
        exact h.apart k k' page' given given' hcur hcur'
  · intro page' hpage'
    by_cases hnew : page' = page
    · subst hnew
      exact ⟨cls r, hcap, .inl ⟨index + 1, hself⟩⟩
    · have hold : page' < b.taken := by
        rw [serve_taken_of_place hplace] at hpage'
        split_ifs at hpage' with heq
        · omega
        · exact hpage'
      obtain ⟨k, hpos, hown⟩ := h.owner page' hold
      refine ⟨k, hpos, ?_⟩
      rcases hown with ⟨given, hcur⟩ | hall
      · by_cases hk : k = cls r
        · -- the page was current for the class of the request: it is used up
          subst hk
          right
          rcases place_cases b capacity (cls r) with ⟨page₀, given₀, hcur₀, -, heq⟩ | ⟨hfull, -⟩
          · obtain ⟨rfl, rfl⟩ := Prod.mk.inj (heq.symm.trans hplace)
            rw [hcur] at hcur₀
            exact absurd (Prod.mk.inj (Option.some.inj hcur₀)).1 hnew
          · intro t ht
            have hgiven := hfull page' given hcur
            exact ((h.current _ page' given hcur).2.2.2 t (by omega)).serve
        · exact .inl ⟨given, by rw [serve_current_of_ne hk, hcur]⟩
      · exact .inr fun t ht => (hall t ht).serve

end Lemmas

end Bump

end Cutesugar.Lib
