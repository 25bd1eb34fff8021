import Mathlib.Control.Monad.Basic
import Mathlib.Data.Int.Notation
import Mathlib.Data.List.Basic
import Mathlib.Data.List.TakeDrop

/-!
# Byte strings (`libc/string`)

What a `char *` points to is the list of the bytes from there to the end of the array. A function
that would read or write outside of an array does not return a value but a `Fault`.
-/

namespace Cutesugar.Libc

/-- Why a function does not return. -/
inductive Fault where
  /-- a write behind the end of an array -/
  | overflow
  /-- a read behind the end of an array -/
  | overread
  /-- a null pointer is followed -/
  | null
  /-- a loop or a recursion goes on beyond the bound -/
  | stuck
  deriving DecidableEq

/-- A sequence of two calls returns what the second one returns on the result of the first. -/
theorem bind_eq_ok {ε α β : Type} {x : Except ε α} {f : α → Except ε β} {b : β} :
    x >>= f = .ok b ↔ ∃ a, x = .ok a ∧ f a = .ok b := by
  cases x with
  | error e => exact ⟨fun h => absurd h (by simp [bind, Except.bind]), fun ⟨_, h, _⟩ => nomatch h⟩
  | ok a =>
    constructor
    · exact fun h => ⟨a, rfl, h⟩
    · rintro ⟨a', ha, hb⟩
      obtain rfl := Except.ok.inj ha
      exact hb

/-- A sequence of two calls fails in the first or in the second. -/
theorem bind_eq_error {ε α β : Type} {x : Except ε α} {f : α → Except ε β} {e : ε} :
    x >>= f = .error e ↔ x = .error e ∨ ∃ a, x = .ok a ∧ f a = .error e := by
  cases x with
  | error e' => simp [bind, Except.bind]
  | ok a => simp [bind, Except.bind]

/-- `strlen`. -/
def strlen : List UInt8 → Except Fault ℕ
  | [] => .error .overread
  | c :: cs => if c = 0 then .ok 0 else (strlen cs).map (· + 1)

/-- `strncmp`: the difference at the first `n` bytes, as far as they go. -/
def strncmp : List UInt8 → List UInt8 → ℕ → Except Fault ℤ
  | _, _, 0 => .ok 0
  | s :: src, d :: dst, n + 1 =>
    if d = s then
      if n = 0 ∨ s = 0 then .ok (s.toNat - d.toNat) else strncmp src dst n
    else .ok (s.toNat - d.toNat)
  | _, _, _ + 1 => .error .overread

/-- The loop of `strcat` that copies, and the NUL behind. -/
def strcatLoop : List UInt8 → ℕ → List UInt8 → Except Fault (List UInt8)
  | [], _, _ => .error .overread
  | c :: src, stop, dst =>
    if stop < dst.length then
      if c = 0 then .ok (dst.set stop 0) else strcatLoop src (stop + 1) (dst.set stop c)
    else .error .overflow

/-- `strcat`, with the array that `dst` points to afterwards. -/
def strcat (dst src : List UInt8) : Except Fault (List UInt8) := do
  let stop ← strlen dst
  strcatLoop src stop dst

/-- The string that an array holds: the bytes before the first NUL. -/
def cString (bs : List UInt8) : List UInt8 := bs.takeWhile (· != 0)

/-- The array of `n` bytes with a string at its start and zeros behind. -/
def pad (n : ℕ) (bs : List UInt8) : List UInt8 := bs ++ List.replicate (n - bs.length) 0

variable {bs src dst rest : List UInt8} {n : ℕ}

/-! ## Strings in arrays -/

@[simp] theorem cString_nil : cString [] = [] := rfl

@[simp] theorem cString_zero : cString (0 :: bs) = [] := rfl

theorem cString_cons {c : UInt8} (h : c ≠ 0) : cString (c :: bs) = c :: cString bs := by
  simp [cString, h]

theorem cString_append (h : 0 ∉ bs) : cString (bs ++ 0 :: rest) = bs := by
  induction bs with
  | nil => rfl
  | cons c cs ih =>
    obtain ⟨hc, hcs⟩ := not_or.mp (List.mem_cons.not.mp h)
    rw [List.cons_append, cString_cons (Ne.symm hc), ih hcs]

theorem cString_append_of_notMem (h : 0 ∉ bs) :
    cString (bs ++ rest) = bs ++ cString rest := by
  induction bs with
  | nil => rfl
  | cons c cs ih =>
    obtain ⟨hc, hcs⟩ := not_or.mp (List.mem_cons.not.mp h)
    rw [List.cons_append, cString_cons (Ne.symm hc), ih hcs]
    rfl

theorem cString_of_notMem (h : 0 ∉ bs) : cString bs = bs := by
  have hself : cString (bs ++ []) = bs ++ cString [] := cString_append_of_notMem h
  rwa [List.append_nil, cString_nil, List.append_nil] at hself

/-- A string is read back exactly if the byte behind it is a NUL. -/
theorem cString_append_eq_iff {b : UInt8} (h : 0 ∉ bs) :
    cString (bs ++ b :: rest) = bs ↔ b = 0 := by
  induction bs with
  | nil =>
    by_cases hb : b = 0
    · subst hb
      exact iff_of_true rfl rfl
    · rw [List.nil_append, cString_cons hb]
      exact iff_of_false (List.cons_ne_nil _ _) hb
  | cons c cs ih =>
    obtain ⟨hc, hcs⟩ := not_or.mp (List.mem_cons.not.mp h)
    rw [List.cons_append, cString_cons (Ne.symm hc), List.cons.injEq, ih hcs]
    exact and_iff_right rfl

/-- The string in the first bytes is the start of the string. -/
theorem cString_take (bs : List UInt8) (n : ℕ) : cString (bs.take n) = (cString bs).take n := by
  induction n generalizing bs with
  | zero => rfl
  | succ n ih =>
    cases bs with
    | nil => rfl
    | cons c cs =>
      rw [List.take_succ_cons]
      by_cases hc : c = 0
      · subst hc
        rfl
      · rw [cString_cons hc, cString_cons hc, List.take_succ_cons, ih]

/-- A short string is the whole one as soon as it is the string in enough bytes. -/
theorem cString_take_eq_iff {c : List UInt8} (hc : c.length < n) :
    cString (bs.take n) = c ↔ cString bs = c := by
  rw [cString_take]
  constructor
  · rintro rfl
    rw [List.length_take] at hc
    rw [List.take_of_length_le (by omega)]
  · rintro rfl
    exact List.take_of_length_le (Nat.le_of_lt hc)

theorem length_pad (h : bs.length ≤ n) : (pad n bs).length = n := by
  rw [pad, List.length_append, List.length_replicate]
  omega

/-- A padded string is followed by a NUL. -/
theorem pad_eq (h : bs.length < n) :
    pad n bs = bs ++ 0 :: List.replicate (n - bs.length - 1) 0 := by
  obtain ⟨k, hk⟩ : ∃ k, n - bs.length = k + 1 := ⟨n - bs.length - 1, by omega⟩
  rw [pad, hk, List.replicate_succ]
  rfl

theorem cString_pad (h : bs.length < n) (h0 : 0 ∉ bs) : cString (pad n bs) = bs := by
  rw [pad_eq h, cString_append h0]

/-- A string that fills the array is read back from it as well. -/
theorem cString_pad_of_le (h : bs.length ≤ n) (h0 : 0 ∉ bs) : cString (pad n bs) = bs := by
  rcases Nat.lt_or_eq_of_le h with hlt | rfl
  · exact cString_pad hlt h0
  · rw [pad, Nat.sub_self, List.replicate_zero, List.append_nil, cString_of_notMem h0]

theorem strlen_append (h : 0 ∉ bs) : strlen (bs ++ 0 :: rest) = .ok bs.length := by
  induction bs with
  | nil => rfl
  | cons c cs ih =>
    obtain ⟨hc, hcs⟩ := not_or.mp (List.mem_cons.not.mp h)
    rw [List.cons_append, strlen, if_neg (Ne.symm hc), ih hcs]
    rfl

/-- The length of the string in an array. -/
theorem strlen_eq_ok (h : strlen bs = .ok n) : bs.take n = cString bs := by
  induction bs generalizing n with
  | nil => exact absurd h (by simp [strlen])
  | cons c cs ih =>
    rw [strlen] at h
    by_cases hc : c = 0
    · rw [if_pos hc] at h
      obtain rfl := Except.ok.inj h
      rw [hc]
      rfl
    · rw [if_neg hc] at h
      cases hrest : strlen cs with
      | error e => simp [hrest, Except.map] at h
      | ok k =>
        rw [hrest] at h
        obtain rfl := Except.ok.inj h
        rw [List.take_succ_cons, cString_cons hc, ih hrest]

/-! ## Comparison -/

/-- Behind a byte that is no NUL there is still room for one byte less, or a NUL. -/
theorem room_tail {c : UInt8} (hc : c ≠ 0) (h : n + 1 ≤ (c :: bs).length ∨ 0 ∈ c :: bs) :
    n ≤ bs.length ∨ 0 ∈ bs := by
  rcases h with h | h
  · exact .inl (Nat.le_of_succ_le_succ h)
  · exact .inr ((List.mem_cons.mp h).resolve_left (Ne.symm hc))

/-- When both arrays hold `n` bytes or end their string before, the comparison stays inside them,
and finds no difference iff the strings in the first `n` bytes are the same. -/
theorem strncmp_spec (hsrc : n ≤ src.length ∨ 0 ∈ src) (hdst : n ≤ dst.length ∨ 0 ∈ dst) :
    ∃ v, strncmp src dst n = .ok v ∧ (v = 0 ↔ cString (src.take n) = cString (dst.take n)) := by
  induction n generalizing src dst with
  | zero => exact ⟨0, by rw [strncmp], by simp⟩
  | succ n ih =>
    cases src with
    | nil => simp at hsrc
    | cons s src =>
      cases dst with
      | nil => simp at hdst
      | cons d dst =>
        rw [strncmp]
        by_cases hds : d = s
        · subst hds
          rw [if_pos rfl]
          by_cases hend : n = 0 ∨ d = 0
          · rw [if_pos hend]
            refine ⟨_, rfl, iff_of_true (Int.sub_self _) ?_⟩
            rcases hend with rfl | rfl <;> rfl
          · -- both go on behind a common byte
            rw [if_neg hend]
            obtain ⟨-, hd⟩ := not_or.mp hend
            obtain ⟨v, hv, hiff⟩ := ih (room_tail hd hsrc) (room_tail hd hdst)
            refine ⟨v, hv, hiff.trans ?_⟩
            rw [List.take_succ_cons, List.take_succ_cons, cString_cons hd, cString_cons hd]
            simp
        · rw [if_neg hds]
          refine ⟨_, rfl, iff_of_false ?_ ?_⟩
          · intro hzero
            apply hds
            apply UInt8.toNat_inj.mp
            omega
          · intro heq
            rw [List.take_succ_cons, List.take_succ_cons] at heq
            by_cases hs : s = 0
            · subst hs
              rw [cString_zero, cString_cons hds] at heq
              exact absurd heq (by simp)
            · rw [cString_cons hs] at heq
              by_cases hd : d = 0
              · subst hd
                exact absurd heq (by simp)
              · rw [cString_cons hd] at heq
                exact hds (List.cons.inj heq).1.symm

/-! ## Concatenation -/

theorem set_append_drop {c : UInt8} {stop : ℕ} (h : stop < dst.length) :
    (dst.set stop c).take (stop + 1) = dst.take stop ++ [c] ∧
      (dst.set stop c).drop (stop + 1) = dst.drop (stop + 1) := by
  constructor
  · rw [List.take_add_one, List.take_set_of_le (Nat.le_refl stop), List.getElem?_set_self h]
    rfl
  · rw [List.drop_set_of_lt (Nat.lt_succ_self stop)]

theorem strcatLoop_eq {stop : ℕ} (hsrc : 0 ∉ src) (h : stop + src.length < dst.length) :
    strcatLoop (src ++ 0 :: rest) stop dst =
      .ok (dst.take stop ++ src ++ 0 :: dst.drop (stop + src.length + 1)) := by
  induction src generalizing stop dst with
  | nil =>
    rw [List.length_nil, Nat.add_zero] at h ⊢
    obtain ⟨htake, hdrop⟩ := set_append_drop (c := 0) h
    rw [List.nil_append, strcatLoop, if_pos h, if_pos rfl, ← List.take_append_drop (stop + 1) (dst.set stop 0),
      htake, hdrop]
    simp
  | cons c src ih =>
    obtain ⟨hc, hcs⟩ := not_or.mp (List.mem_cons.not.mp hsrc)
    rw [List.length_cons] at h
    have hstop : stop < dst.length := by omega
    obtain ⟨htake, -⟩ := set_append_drop (c := c) hstop
    rw [List.cons_append, strcatLoop, if_pos hstop, if_neg (Ne.symm hc),
      ih hcs (by rw [List.length_set]; omega), htake, List.drop_set_of_lt (by omega), List.length_cons]
    congr 2
    · simp
    · congr 2
      omega

/-- **`strcat`** in an array that has room. -/
theorem strcat_pad (hbs : 0 ∉ bs) (hsrc : 0 ∉ src) (h : bs.length + src.length < n) :
    strcat (pad n bs) (src ++ 0 :: rest) = .ok (pad n (bs ++ src)) := by
  have hlt : bs.length < n := by omega
  have hlength : (pad n bs).length = n := length_pad (Nat.le_of_lt hlt)
  have hstrlen : strlen (pad n bs) = .ok bs.length := by rw [pad_eq hlt, strlen_append hbs]
  have hcopy : strcatLoop (src ++ 0 :: rest) bs.length (pad n bs) = _ :=
    strcatLoop_eq hsrc (by rwa [hlength])
  have hdrop : (pad n bs).drop (bs.length + src.length + 1) =
      List.replicate (n - (bs.length + src.length) - 1) 0 := by
    rw [pad, List.drop_append, List.drop_of_length_le (by omega), List.nil_append, List.drop_replicate]
    congr 1
    omega
  simp only [strcat, hstrlen, bind, Except.bind]
  rw [hcopy, hdrop, pad, List.take_left, ← List.length_append, ← pad_eq (by rwa [List.length_append])]

end Cutesugar.Libc
