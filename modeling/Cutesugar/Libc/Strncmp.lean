import Cutesugar.Libc.String

/-!
# Comparing strings (`libc/string/strncmp.c`)

The loop counts `n` down before it compares, and tests it again behind the comparison. It ends at the first
difference, at a NUL that both strings have, or with the last of the `n` bytes, and what it returns is the
difference of the bytes where it ends.

- `StopsAt`: where the comparison ends.
- `BoundedCompare`: what is read, and what the value says.
- `strncmp_bounded`: this is so for strings that end or have `n` bytes.
-/

namespace Cutesugar.Libc

/-- There is a NUL within the first `n` bytes, or there are `n` bytes. -/
def Bounded (n : ℕ) (bs : List UInt8) : Prop := 0 ∈ bs.take n ∨ n ≤ bs.length

/-- The strings agree up to the first NUL or the `n`-th byte. -/
def Agree (n : ℕ) (src dst : List UInt8) : Prop :=
  ∀ i < n, (∀ j < i, src[j]? ≠ some 0) → src[i]? = dst[i]?

/-- The first difference is at a position, with these bytes. -/
structure FirstDiffer (n : ℕ) (src dst : List UInt8) (i : ℕ) (s d : UInt8) : Prop where
  lt : i < n
  same : ∀ j < i, src[j]? = dst[j]? ∧ src[j]? ≠ some 0
  src_eq : src[i]? = some s
  dst_eq : dst[i]? = some d
  ne : s ≠ d

/-- What a comparison with a value has done. A read behind the end of an array is a fault, so the bytes that
are read are those of the arrays that may be cut off without one. -/
structure BoundedCompare (n : ℕ) (src dst : List UInt8) (v : ℤ) : Prop where
  reads : ∃ k ≤ n, (∀ j, j + 1 < k → src[j]? ≠ some 0 ∧ dst[j]? ≠ some 0) ∧
    strncmp (src.take k) (dst.take k) n = .ok v
  zero_iff : v = 0 ↔ Agree n src dst
  sign : v ≠ 0 → ∃ i s d, FirstDiffer n src dst i s d ∧ (v < 0 ↔ s < d) ∧ (0 < v ↔ d < s)

/-- The comparison ends at a position, with these bytes. -/
structure StopsAt (n : ℕ) (src dst : List UInt8) (i : ℕ) (s d : UInt8) : Prop where
  lt : i < n
  same : ∀ j < i, src[j]? = dst[j]? ∧ src[j]? ≠ some 0
  src_eq : src[i]? = some s
  dst_eq : dst[i]? = some d
  stop : s ≠ d ∨ s = 0 ∨ i + 1 = n

variable {n i : ℕ} {src dst bs : List UInt8} {s d c : UInt8}

/-! ## Where the comparison ends -/

theorem not_bounded_nil (n : ℕ) : ¬ Bounded (n + 1) [] := by
  simp [Bounded]

/-- Behind a byte that is no NUL a string is bounded by one byte less. -/
theorem Bounded.tail (h : Bounded (n + 1) (c :: bs)) (hc : c ≠ 0) : Bounded n bs := by
  rcases h with hmem | hlen
  · rw [List.take_succ_cons] at hmem
    exact .inl ((List.mem_cons.mp hmem).resolve_left hc.symm)
  · exact .inr (Nat.le_of_succ_le_succ hlen)

/-- An end behind the first byte is one of the tails, behind a common byte. -/
theorem StopsAt.cons (h : StopsAt n src dst i s d) (hc : c ≠ 0) :
    StopsAt (n + 1) (c :: src) (c :: dst) (i + 1) s d where
  lt := Nat.succ_lt_succ h.lt
  same := by
    intro j hj
    cases j with
    | zero => exact ⟨rfl, by simpa using hc⟩
    | succ j => exact h.same j (Nat.lt_of_succ_lt_succ hj)
  src_eq := h.src_eq
  dst_eq := h.dst_eq
  stop := by simpa using h.stop

/-- **The comparison ends** at some position. -/
theorem exists_stopsAt (hn : 0 < n) (hsrc : Bounded n src) (hdst : Bounded n dst) :
    ∃ i s d, StopsAt n src dst i s d := by
  induction n generalizing src dst with
  | zero => exact absurd hn (Nat.lt_irrefl 0)
  | succ n ih =>
    cases src with
    | nil => exact absurd hsrc (not_bounded_nil n)
    | cons s src =>
      cases dst with
      | nil => exact absurd hdst (not_bounded_nil n)
      | cons d dst =>
        by_cases hstop : s ≠ d ∨ s = 0 ∨ 0 + 1 = n + 1
        · refine ⟨0, s, d, ?_⟩
          exact
            { lt := Nat.succ_pos n
              same := fun j hj => absurd hj (Nat.not_lt_zero j)
              src_eq := rfl
              dst_eq := rfl
              stop := hstop }
        · -- a common byte that is neither a NUL nor the last one
          obtain ⟨hsame, hgo⟩ := not_or.mp hstop
          obtain ⟨hs, hlast⟩ := not_or.mp hgo
          obtain rfl := not_not.mp hsame
          have hpos : 0 < n := by omega
          obtain ⟨i, s', d', h⟩ := ih hpos (hsrc.tail hs) (hdst.tail hs)
          exact ⟨i + 1, s', d', h.cons hs⟩

/-! ## What is returned -/

/-- The comparison returns the difference of the bytes where it ends. -/
theorem StopsAt.strncmp_eq (h : StopsAt n src dst i s d) : strncmp src dst n = .ok (s.toNat - d.toNat) := by
  induction i generalizing n src dst with
  | zero =>
    obtain ⟨n, rfl⟩ := Nat.exists_eq_succ_of_ne_zero (Nat.ne_of_gt h.lt)
    obtain ⟨src, rfl⟩ := List.head?_eq_some_iff.mp (List.head?_eq_getElem?.trans h.src_eq)
    obtain ⟨dst, rfl⟩ := List.head?_eq_some_iff.mp (List.head?_eq_getElem?.trans h.dst_eq)
    rw [strncmp]
    -- the comparison ends here: at a difference, a NUL or the last byte
    by_cases hds : d = s
    · have hend : n = 0 ∨ s = 0 := by
        rcases h.stop with hne | hzero | hlast
        · exact absurd hds.symm hne
        · exact .inr hzero
        · exact .inl (Nat.succ.inj hlast).symm
      rw [if_pos hds, if_pos hend]
    · rw [if_neg hds]
  | succ i ih =>
    obtain ⟨n, rfl⟩ := Nat.exists_eq_succ_of_ne_zero (Nat.ne_zero_of_lt h.lt)
    obtain ⟨hfirst, hnul⟩ := h.same 0 (Nat.succ_pos i)
    cases src with
    | nil => exact absurd h.src_eq (by simp)
    | cons c src =>
      cases dst with
      | nil => exact absurd h.dst_eq (by simp)
      | cons c' dst =>
        obtain rfl : c = c' := by simpa using hfirst
        have hc : c ≠ 0 := by simpa using hnul
        have hlt : i < n := Nat.lt_of_succ_lt_succ h.lt
        -- it goes on behind the first byte
        have hgo : ¬ (n = 0 ∨ c = 0) := not_or.mpr ⟨Nat.ne_zero_of_lt hlt, hc⟩
        rw [strncmp, if_pos rfl, if_neg hgo]
        apply ih
        exact
          { lt := hlt
            same := fun j hj => h.same (j + 1) (Nat.succ_lt_succ hj)
            src_eq := h.src_eq
            dst_eq := h.dst_eq
            stop := by simpa using h.stop }

/-- What stands behind the end may be cut off. -/
theorem StopsAt.take (h : StopsAt n src dst i s d) : StopsAt n (src.take (i + 1)) (dst.take (i + 1)) i s d where
  lt := h.lt
  same := by
    intro j hj
    rw [List.getElem?_take_of_lt (by omega), List.getElem?_take_of_lt (by omega)]
    exact h.same j hj
  src_eq := by rw [List.getElem?_take_of_lt (Nat.lt_succ_self i), h.src_eq]
  dst_eq := by rw [List.getElem?_take_of_lt (Nat.lt_succ_self i), h.dst_eq]
  stop := h.stop

/-- The strings agree exactly if they do so where the comparison ends. -/
theorem StopsAt.agree_iff (h : StopsAt n src dst i s d) : Agree n src dst ↔ s = d := by
  constructor
  · intro hagree
    have hi := hagree i h.lt fun j hj => (h.same j hj).2
    rw [h.src_eq, h.dst_eq] at hi
    exact Option.some.inj hi
  · rintro rfl k hk hbefore
    rcases Nat.lt_trichotomy k i with hlt | rfl | hgt
    · exact (h.same k hlt).1
    · rw [h.src_eq, h.dst_eq]
    · -- nothing is compared behind a NUL or the last byte
      rcases h.stop with hne | rfl | hlast
      · exact absurd rfl hne
      · exact absurd h.src_eq (hbefore i hgt)
      · omega

/-- The end of a comparison that finds a difference is the first difference. -/
theorem StopsAt.firstDiffer (h : StopsAt n src dst i s d) (hne : s ≠ d) : FirstDiffer n src dst i s d where
  lt := h.lt
  same := h.same
  src_eq := h.src_eq
  dst_eq := h.dst_eq
  ne := hne

theorem StopsAt.boundedCompare (h : StopsAt n src dst i s d) :
    BoundedCompare n src dst (s.toNat - d.toNat) where
  reads := by
    refine ⟨i + 1, h.lt, ?_, h.take.strncmp_eq⟩
    intro j hj
    obtain ⟨hsame, hnul⟩ := h.same j (Nat.lt_of_succ_lt_succ hj)
    exact ⟨hnul, hsame ▸ hnul⟩
  zero_iff := by
    rw [h.agree_iff, Int.sub_eq_zero, Int.ofNat_inj, UInt8.toNat_inj]
  sign := by
    intro hv
    have hne : s ≠ d := fun heq => hv (by rw [heq, Int.sub_self])
    refine ⟨i, s, d, h.firstDiffer hne, ?_, ?_⟩
    · rw [UInt8.lt_iff_toNat_lt]
      omega
    · rw [UInt8.lt_iff_toNat_lt]
      omega

/-- **The bounded comparison**: it reads no byte behind the first `n` and none behind a NUL, finds no
difference exactly if there is none up to there, and else orders the strings by the first one. -/
theorem strncmp_bounded (hsrc : Bounded n src) (hdst : Bounded n dst) :
    ∃ v, strncmp src dst n = .ok v ∧ BoundedCompare n src dst v := by
  rcases Nat.eq_zero_or_pos n with rfl | hn
  · refine ⟨0, by rw [strncmp], ?_⟩
    exact
      { reads := ⟨0, Nat.le_refl 0, fun j hj => absurd hj (Nat.not_lt_zero _), by rw [strncmp]⟩
        zero_iff := iff_of_true rfl fun i hi => absurd hi (Nat.not_lt_zero i)
        sign := fun hv => absurd rfl hv }
  · obtain ⟨i, s, d, h⟩ := exists_stopsAt hn hsrc hdst
    exact ⟨_, h.strncmp_eq, h.boundedCompare⟩

/-- `"ab"` and `"aé"` in Latin-1, compared as names of objects are. -/
theorem strncmp_bounded_names :
    ∃ v, strncmp [97, 98, 0] [97, 233, 0] 32 = .ok v ∧ BoundedCompare 32 [97, 98, 0] [97, 233, 0] v :=
  strncmp_bounded (.inl (by decide)) (.inl (by decide))

end Cutesugar.Libc
