import Cutesugar.Lib.Memory

/-!
# A stack in memory

A processor keeps its stack in memory: it grows downwards by 64-bit words, and a register points at
the word on top. A push and a pop move that pointer by eight. `Stacked` says which words are found
from the pointer on, the top first; it is kept by both, and everything outside of the words pushed is
left alone.
-/

namespace Cutesugar.Lib

/-- A memory and a pointer to the top of a stack in it. -/
structure CallStack where
  mem : Memory
  top : UInt64

namespace CallStack

/-- The word at an address. -/
def word (m : Memory) (a : ℕ) : UInt64 := UInt64.ofNat (m.load64 a)

def push (s : CallStack) (v : UInt64) : CallStack where
  mem := s.mem.store64 (s.top - 8).toNat v.toNat
  top := s.top - 8

/-- Words are pushed, the first one first. -/
def pushAll (s : CallStack) (vs : List UInt64) : CallStack := vs.foldl push s

/-- The words from the top on. -/
def Stacked (s : CallStack) (ws : List UInt64) : Prop :=
  s.top.toNat + 8 * ws.length < 2 ^ 64 ∧
    ∀ i v, ws[i]? = some v → word s.mem (s.top.toNat + 8 * i) = v

variable {s : CallStack} {m m' : Memory} {v : UInt64} {vs ws : List UInt64} {a : ℕ}

theorem word_store64 (m : Memory) (a : ℕ) (v : UInt64) : word (m.store64 a v.toNat) a = v := by
  rw [word, Memory.load64_store64_same_of_lt v.toNat_lt, UInt64.ofNat_toNat]

theorem word_congr (h : ∀ b, a ≤ b → b < a + 8 → m b = m' b) : word m a = word m' a := by
  rw [word, word, Memory.load64_congr h]

/-- An empty stack. -/
theorem stacked_nil (s : CallStack) : s.Stacked [] :=
  ⟨s.top.toNat_lt, fun i v hv => by simp at hv⟩

theorem toNat_sub (h : a ≤ s.top.toNat) : (s.top - UInt64.ofNat a).toNat = s.top.toNat - a := by
  have hlt := s.top.toNat_lt
  have hofNat : (UInt64.ofNat a).toNat = a := by
    rw [UInt64.toNat_ofNat']
    exact Nat.mod_eq_of_lt (by omega)
  rw [UInt64.toNat_sub_of_le _ _ (UInt64.le_iff_toNat_le.mpr (by rwa [hofNat])), hofNat]

/-- The words go on being there as long as their bytes are the same. -/
theorem Stacked.congr (h : s.Stacked ws)
    (hsame : ∀ b, s.top.toNat ≤ b → b < s.top.toNat + 8 * ws.length → m b = s.mem b) :
    Stacked ⟨m, s.top⟩ ws := by
  refine ⟨h.1, fun i v hv => ?_⟩
  have hi : i < ws.length := (List.getElem?_eq_some_iff.mp hv).1
  change word m (s.top.toNat + 8 * i) = v
  rw [← h.2 i v hv]
  exact word_congr fun b hb hb' => hsame b (by omega) (by omega)

/-! ## Pushes -/

theorem push_top (h : 8 ≤ s.top.toNat) : (s.push v).top.toNat = s.top.toNat - 8 :=
  toNat_sub h

theorem push_apply {b : ℕ} (h : 8 ≤ s.top.toNat) (hb : ¬ (s.top.toNat - 8 ≤ b ∧ b < s.top.toNat)) :
    (s.push v).mem b = s.mem b := by
  have htop : (s.top - 8).toNat = s.top.toNat - 8 := toNat_sub h
  apply Memory.store64_apply_of_not_mem
  omega

/-- **A push** puts a word on top of the others. -/
theorem Stacked.push (hs : s.Stacked ws) (h : 8 ≤ s.top.toNat) : (s.push v).Stacked (v :: ws) := by
  have htop : (s.push v).top.toNat = s.top.toNat - 8 := push_top h
  refine ⟨?_, fun i w hw => ?_⟩
  · have hbound := hs.1
    rw [List.length_cons]
    omega
  · cases i with
    | zero =>
      obtain rfl : v = w := by simpa using hw
      exact word_store64 _ _ _
    | succ i =>
      -- a word that was there already
      have hold := hs.2 i w (by simpa using hw)
      have hplace : (s.push v).top.toNat + 8 * (i + 1) = s.top.toNat + 8 * i := by omega
      rw [← hold, hplace]
      exact word_congr fun b hb _ => push_apply h (by omega)

theorem pushAll_append (s : CallStack) (vs us : List UInt64) :
    s.pushAll (vs ++ us) = (s.pushAll vs).pushAll us := by
  rw [CallStack.pushAll, List.foldl_append]
  rfl

theorem pushAll_top (h : 8 * vs.length ≤ s.top.toNat) :
    (s.pushAll vs).top.toNat = s.top.toNat - 8 * vs.length := by
  induction vs generalizing s with
  | nil => rfl
  | cons v vs ih =>
    rw [List.length_cons] at h ⊢
    have hpush : (s.push v).top.toNat = s.top.toNat - 8 := push_top (by omega)
    have hrest : ((s.push v).pushAll vs).top.toNat = (s.push v).top.toNat - 8 * vs.length :=
      ih (by omega)
    change ((s.push v).pushAll vs).top.toNat = _
    omega

/-- **The pushes leave alone** what is outside of the words pushed. -/
theorem pushAll_apply {b : ℕ} (h : 8 * vs.length ≤ s.top.toNat)
    (hb : ¬ (s.top.toNat - 8 * vs.length ≤ b ∧ b < s.top.toNat)) : (s.pushAll vs).mem b = s.mem b := by
  induction vs generalizing s with
  | nil => rfl
  | cons v vs ih =>
    rw [List.length_cons] at h hb
    have hpush : (s.push v).top.toNat = s.top.toNat - 8 := push_top (by omega)
    change ((s.push v).pushAll vs).mem b = _
    rw [ih (by omega) (by omega), push_apply (by omega) (by omega)]

/-- **Pushes** put their words on top of the others, the last one first. -/
theorem Stacked.pushAll (hs : s.Stacked ws) (h : 8 * vs.length ≤ s.top.toNat) :
    (s.pushAll vs).Stacked (vs.reverse ++ ws) := by
  induction vs generalizing s ws with
  | nil => exact hs
  | cons v vs ih =>
    rw [List.length_cons] at h
    have hpush : (s.push v).top.toNat = s.top.toNat - 8 := push_top (by omega)
    rw [List.reverse_cons, List.append_assoc]
    exact ih (hs.push (by omega)) (by omega)

/-! ## Pops -/

/-- The word on top. -/
theorem Stacked.head (hs : s.Stacked (v :: ws)) : word s.mem s.top.toNat = v :=
  hs.2 0 v rfl

/-- **A pop** uncovers the other words. -/
theorem Stacked.tail (hs : s.Stacked (v :: ws)) : Stacked ⟨s.mem, s.top + 8⟩ ws := by
  obtain ⟨hbound, hwords⟩ := hs
  rw [List.length_cons] at hbound
  have htop : (s.top + 8).toNat = s.top.toNat + 8 := by
    rw [UInt64.toNat_add]
    exact Nat.mod_eq_of_lt (by
      change s.top.toNat + 8 < 2 ^ 64
      omega)
  refine ⟨?_, fun i w hw => ?_⟩
  · change (s.top + 8).toNat + _ < _
    omega
  · have hplace : (s.top + 8).toNat + 8 * i = s.top.toNat + 8 * (i + 1) := by omega
    change word s.mem ((s.top + 8).toNat + _) = w
    rw [hplace]
    exact hwords (i + 1) w (by simpa using hw)

/-- A word that is replaced. -/
theorem Stacked.set (hs : s.Stacked ws) {i : ℕ} (hi : i < ws.length) :
    Stacked ⟨s.mem.store64 (s.top.toNat + 8 * i) v.toNat, s.top⟩ (ws.set i v) := by
  refine ⟨by rw [List.length_set]; exact hs.1, fun j w hw => ?_⟩
  change word (s.mem.store64 _ _) (s.top.toNat + 8 * j) = w
  rcases eq_or_ne i j with rfl | hne
  · rw [List.getElem?_set_self hi] at hw
    rw [word_store64]
    exact Option.some.inj hw
  · rw [List.getElem?_set_ne hne] at hw
    rw [← hs.2 j w hw]
    exact word_congr fun b hb hb' => Memory.store64_apply_of_not_mem (by omega)

end CallStack

end Cutesugar.Lib
