import Mathlib.Data.Set.Function
import Mathlib.Order.Interval.Set.Basic
import Mathlib.Tactic.Ring

/-!
# Flat byte memory

A memory is a total function from addresses to bytes. Multi-byte values are stored little
endian. The lemmas come in two groups: what a load reads after a store, a `memset` or a
`memcpy`, and the frame rules that say where each of them leaves the memory alone.

Regions are half-open intervals `[a, a + n)`. Two regions that do not meet are `Apart`,
a form that linear arithmetic can use directly.
-/

namespace Cutesugar.Lib

/-- A flat byte memory. -/
abbrev Memory := ℕ → UInt8

/-- The regions `[a, a + n)` and `[b, b + k)` do not meet. -/
def Apart (a n b k : ℕ) : Prop := a + n ≤ b ∨ b + k ≤ a

instance (a n b k : ℕ) : Decidable (Apart a n b k) :=
  inferInstanceAs (Decidable (_ ∨ _))

theorem Apart.symm {a n b k : ℕ} (h : Apart a n b k) : Apart b k a n :=
  Or.symm h

/-- Every byte of a region apart from another one is outside of it. -/
theorem Apart.not_mem {a n b k o : ℕ} (h : Apart a n b k) (ho : o < n) :
    ¬ (b ≤ a + o ∧ a + o < b + k) := by
  unfold Apart at h
  omega

namespace Memory

/-! ## Loads and stores -/

/-- The little-endian value of the `n` bytes from address `a`. -/
def load (m : Memory) (a : ℕ) : ℕ → ℕ
  | 0 => 0
  | n + 1 => (m a).toNat + 256 * load m (a + 1) n

/-- Store the low `n` bytes of `v` at address `a`, little endian. -/
def store (m : Memory) (a n v : ℕ) : Memory := fun b =>
  if a ≤ b ∧ b < a + n then UInt8.ofNat (v / 256 ^ (b - a)) else m b

/-- Fill the `n` bytes from `a` with the byte `c`. -/
def memset (m : Memory) (a : ℕ) (c : UInt8) (n : ℕ) : Memory := fun b =>
  if a ≤ b ∧ b < a + n then c else m b

/-- Copy `n` bytes from `src` to `dst`, all bytes read before any is written. -/
def memcpy (m : Memory) (dst src n : ℕ) : Memory := fun b =>
  if dst ≤ b ∧ b < dst + n then m (src + (b - dst)) else m b

/-- Load a 64-bit word. -/
def load64 (m : Memory) (a : ℕ) : ℕ := m.load a 8

/-- Store a 64-bit word. -/
def store64 (m : Memory) (a v : ℕ) : Memory := m.store a 8 v

variable {m m' : Memory} {a b n k v : ℕ}

@[simp] theorem load_zero (m : Memory) (a : ℕ) : m.load a 0 = 0 := rfl

theorem load_succ (m : Memory) (a n : ℕ) :
    m.load a (n + 1) = (m a).toNat + 256 * m.load (a + 1) n := rfl

theorem load_lt (m : Memory) (a n : ℕ) : m.load a n < 256 ^ n := by
  induction n generalizing a with
  | zero => simp
  | succ n ih =>
    have hbyte : (m a).toNat < 256 := (m a).toNat_lt
    have hrest := ih (a + 1)
    rw [load_succ, pow_succ]
    omega

theorem load64_lt (m : Memory) (a : ℕ) : m.load64 a < 2 ^ 64 :=
  m.load_lt a 8

/-- A load depends only on the bytes it reads. -/
theorem load_congr (h : ∀ b, a ≤ b → b < a + n → m b = m' b) : m.load a n = m'.load a n := by
  induction n generalizing a with
  | zero => rfl
  | succ n ih =>
    rw [load_succ, load_succ, h a le_rfl (by omega),
      ih fun b hb hb' => h b (by omega) (by omega)]

/-- Reading back what was stored gives the value modulo the width of the store. -/
theorem load_store_same (m : Memory) (a n v : ℕ) : (m.store a n v).load a n = v % 256 ^ n := by
  -- The bytes from `a + i` on hold `v / 256 ^ i`; induction on how many are left.
  suffices h : ∀ j i, i + j = n →
      (m.store a n v).load (a + i) j = v / 256 ^ i % 256 ^ j by
    simpa using h n 0 (by omega)
  intro j
  induction j with
  | zero => intro i _; simp [Nat.mod_one]
  | succ j ih =>
    intro i hi
    have hbyte : ((m.store a n v) (a + i)).toNat = v / 256 ^ i % 256 := by
      simp [store, show i < n by omega]
    have hdiv : v / 256 ^ (i + 1) = v / 256 ^ i / 256 := by
      rw [pow_succ, Nat.div_div_eq_div_mul]
    rw [load_succ, hbyte, show a + i + 1 = a + (i + 1) by ring, ih (i + 1) (by omega), hdiv,
      pow_succ', Nat.mod_mul]

/-! ## Frame rules -/

theorem store_apply_of_not_mem (h : ¬ (a ≤ b ∧ b < a + n)) : m.store a n v b = m b :=
  if_neg h

theorem memset_apply_of_not_mem {c : UInt8} (h : ¬ (a ≤ b ∧ b < a + n)) :
    m.memset a c n b = m b :=
  if_neg h

theorem memcpy_apply_of_not_mem {src : ℕ} (h : ¬ (a ≤ b ∧ b < a + n)) :
    m.memcpy a src n b = m b :=
  if_neg h

/-- A store leaves loads from a region apart from it alone. -/
theorem load_store_of_apart (h : Apart a n b k) : (m.store a n v).load b k = m.load b k :=
  load_congr fun _ hc hc' => store_apply_of_not_mem (by unfold Apart at h; omega)

/-- A fill leaves loads from a region apart from it alone. -/
theorem load_memset_of_apart {c : UInt8} (h : Apart a n b k) :
    (m.memset a c n).load b k = m.load b k :=
  load_congr fun _ hc hc' => memset_apply_of_not_mem (by unfold Apart at h; omega)

/-- A copy leaves loads from a region apart from its target alone. -/
theorem load_memcpy_of_apart {src : ℕ} (h : Apart a n b k) :
    (m.memcpy a src n).load b k = m.load b k :=
  load_congr fun _ hc hc' => memcpy_apply_of_not_mem (by unfold Apart at h; omega)

/-- Where every byte is zero a load gives zero. -/
theorem load_eq_zero (h : ∀ c, b ≤ c → c < b + k → m c = 0) : m.load b k = 0 := by
  induction k generalizing b with
  | zero => rfl
  | succ k ih =>
    rw [load_succ, h b le_rfl (by omega), ih fun c hc hc' => h c (by omega) (by omega)]
    rfl

/-- Inside a region filled with zeros every load gives zero. -/
theorem load_memset_zero (h : a ≤ b) (h' : b + k ≤ a + n) : (m.memset a 0 n).load b k = 0 :=
  load_eq_zero fun c hc hc' => if_pos ⟨h.trans hc, by omega⟩

/-- Inside the target of a copy a load gives what the source held. -/
theorem load_memcpy {src off : ℕ} (h : off + k ≤ n) :
    (m.memcpy a src n).load (a + off) k = m.load (src + off) k := by
  induction k generalizing off with
  | zero => rfl
  | succ k ih =>
    have hbyte : m.memcpy a src n (a + off) = m (src + off) := by
      simp [memcpy, show off < n by omega]
    rw [load_succ, load_succ, hbyte, add_assoc,
      ih (show off + 1 + k ≤ n by omega), ← add_assoc]

/-! ## 64-bit words -/

theorem load64_congr (h : ∀ b, a ≤ b → b < a + 8 → m b = m' b) : m.load64 a = m'.load64 a :=
  load_congr h

@[simp] theorem load64_store64_same (m : Memory) (a v : ℕ) :
    (m.store64 a v).load64 a = v % 2 ^ 64 :=
  load_store_same m a 8 v

theorem load64_store64_same_of_lt (hv : v < 2 ^ 64) : (m.store64 a v).load64 a = v := by
  rw [load64_store64_same, Nat.mod_eq_of_lt hv]

theorem store64_apply_of_not_mem (h : ¬ (a ≤ b ∧ b < a + 8)) : m.store64 a v b = m b :=
  store_apply_of_not_mem h

theorem load64_store64_of_apart (h : Apart a 8 b 8) : (m.store64 a v).load64 b = m.load64 b :=
  load_store_of_apart h

/-- The memory of these words, one at each multiple of eight. -/
def ofWords (word : ℕ → ℕ) : Memory := fun a => UInt8.ofNat (word (a / 8 * 8) / 256 ^ (a % 8))

theorem load64_ofWords {word : ℕ → ℕ} (ha : a % 8 = 0) (hlt : word a < 2 ^ 64) :
    (ofWords word).load64 a = word a := by
  rw [← load64_store64_same_of_lt (m := ofWords word) (a := a) hlt]
  apply load64_congr
  intro b hb hb'
  have hbase : b / 8 * 8 = a := by omega
  have hoffset : b % 8 = b - a := by omega
  rw [store64, store, if_pos ⟨hb, hb'⟩, ofWords, hbase, hoffset]

theorem load64_store_of_apart (h : Apart a n b 8) : (m.store a n v).load64 b = m.load64 b :=
  load_store_of_apart h

theorem load_store64_of_apart (h : Apart a 8 b k) : (m.store64 a v).load b k = m.load b k :=
  load_store_of_apart h

theorem load64_memset_zero (h : a ≤ b) (h' : b + 8 ≤ a + n) : (m.memset a 0 n).load64 b = 0 :=
  load_memset_zero h h'

theorem load64_memset_of_apart {c : UInt8} (h : Apart a n b 8) :
    (m.memset a c n).load64 b = m.load64 b :=
  load_memset_of_apart h

theorem load64_memcpy {src off : ℕ} (h : off + 8 ≤ n) :
    (m.memcpy a src n).load64 (a + off) = m.load64 (src + off) :=
  load_memcpy h

theorem load64_memcpy_of_apart {src : ℕ} (h : Apart a n b 8) :
    (m.memcpy a src n).load64 b = m.load64 b :=
  load_memcpy_of_apart h

/-! ## Byte strings -/

/-- The `n` bytes from address `a` on. -/
def bytes (m : Memory) (a : ℕ) : ℕ → List UInt8
  | 0 => []
  | n + 1 => m a :: bytes m (a + 1) n

/-- Write the bytes of a list from address `a` on. -/
def writeBytes (m : Memory) (a : ℕ) (bs : List UInt8) : Memory := fun b =>
  if a ≤ b ∧ b < a + bs.length then bs.getD (b - a) 0 else m b

@[simp] theorem length_bytes (m : Memory) (a n : ℕ) : (m.bytes a n).length = n := by
  induction n generalizing a with
  | zero => rfl
  | succ n ih => rw [bytes, List.length_cons, ih]

theorem bytes_congr (h : ∀ b, a ≤ b → b < a + n → m b = m' b) : m.bytes a n = m'.bytes a n := by
  induction n generalizing a with
  | zero => rfl
  | succ n ih =>
    rw [bytes, bytes, h a le_rfl (by omega), ih fun b hb hb' => h b (by omega) (by omega)]

/-- A byte string is the bytes before some address and the bytes from there on. -/
theorem bytes_add (m : Memory) (a n k : ℕ) :
    m.bytes a (n + k) = m.bytes a n ++ m.bytes (a + n) k := by
  induction n generalizing a with
  | zero => simp [bytes]
  | succ n ih =>
    rw [Nat.succ_add, bytes, bytes, ih, List.cons_append]
    congr 3
    omega

theorem take_bytes (h : k ≤ n) : (m.bytes a n).take k = m.bytes a k := by
  obtain ⟨l, rfl⟩ := Nat.exists_eq_add_of_le h
  rw [bytes_add]
  exact List.take_left' (length_bytes ..)

theorem writeBytes_apply_of_not_mem {bs : List UInt8} (h : ¬ (a ≤ b ∧ b < a + bs.length)) :
    m.writeBytes a bs b = m b :=
  if_neg h

/-- What was written is read back. -/
theorem bytes_writeBytes (m : Memory) (a : ℕ) (bs : List UInt8) :
    (m.writeBytes a bs).bytes a bs.length = bs := by
  -- the bytes from `a + i` on are those behind the first `i`; induction on how many are left
  suffices h : ∀ j i, i + j = bs.length → (m.writeBytes a bs).bytes (a + i) j = bs.drop i by
    simpa using h bs.length 0 (Nat.zero_add _)
  intro j
  induction j with
  | zero =>
    intro i hi
    rw [bytes, List.drop_of_length_le (by omega)]
  | succ j ih =>
    intro i hi
    have hlt : i < bs.length := by omega
    have hbyte : m.writeBytes a bs (a + i) = bs[i] := by
      rw [writeBytes, if_pos ⟨by omega, by omega⟩, Nat.add_sub_cancel_left]
      simp [hlt]
    rw [bytes, hbyte, Nat.add_assoc, ih (i + 1) (by omega), List.drop_eq_getElem_cons hlt]

theorem load64_writeBytes_of_apart {bs : List UInt8} (h : Apart a bs.length b 8) :
    (m.writeBytes a bs).load64 b = m.load64 b :=
  load_congr fun _ hc hc' => writeBytes_apply_of_not_mem (by unfold Apart at h; omega)

/-- A byte of a value that is loaded. -/
theorem load_byte {i : ℕ} (hi : i < n) : m.load a n / 256 ^ i % 256 = (m (a + i)).toNat := by
  induction i generalizing a n with
  | zero =>
    obtain ⟨n, rfl⟩ : ∃ k, n = k + 1 := ⟨n - 1, by omega⟩
    have hbyte : (m a).toNat < 256 := (m a).toNat_lt
    rw [load_succ, pow_zero, Nat.div_one]
    change _ = (m a).toNat
    omega
  | succ i ih =>
    obtain ⟨n, rfl⟩ : ∃ k, n = k + 1 := ⟨n - 1, by omega⟩
    have hbyte : (m a).toNat < 256 := (m a).toNat_lt
    have hdiv : m.load a (n + 1) / 256 = m.load (a + 1) n := by
      rw [load_succ]
      omega
    rw [pow_succ', ← Nat.div_div_eq_div_mul, hdiv, ih (Nat.lt_of_succ_lt_succ hi), Nat.add_assoc,
      Nat.add_comm 1 i]

/-! ## Words -/

/-- Loads that agree read the same bytes. -/
theorem apply_eq_of_load_eq (h : m.load a n = m'.load a n) (hb : a ≤ b) (hb' : b < a + n) :
    m b = m' b := by
  obtain ⟨i, rfl⟩ := Nat.exists_eq_add_of_le hb
  have hi : i < n := by omega
  have hbyte := load_byte (m := m) (a := a) hi
  rw [h, load_byte hi] at hbyte
  exact UInt8.toNat_inj.mp hbyte.symm

/-- A memory is the one after a store if it has the word and all other bytes. -/
theorem eq_store64_iff : m' = m.store64 a v ↔
    m'.load64 a = v % 2 ^ 64 ∧ ∀ b, ¬ (a ≤ b ∧ b < a + 8) → m' b = m b := by
  constructor
  · rintro rfl
    exact ⟨load64_store64_same m a v, fun b hb => store64_apply_of_not_mem hb⟩
  · rintro ⟨hload, hframe⟩
    funext b
    by_cases hb : a ≤ b ∧ b < a + 8
    · have hsame : m'.load64 a = (m.store64 a v).load64 a := by rw [hload, load64_store64_same]
      exact apply_eq_of_load_eq hsame hb.1 hb.2
    · rw [hframe b hb, store64_apply_of_not_mem hb]

/-- Some words are stored, one after the other. -/
def storeWords (m : Memory) (ws : List (ℕ × ℕ)) : Memory :=
  ws.foldl (fun m w => m.store64 w.1 w.2) m

/-- Some words have their values, and all other bytes are the same. -/
structure HasWords (ws : List (ℕ × ℕ)) (m m' : Memory) : Prop where
  words : ∀ w ∈ ws, m'.load64 w.1 = w.2 % 2 ^ 64
  frame : ∀ b, (∀ w ∈ ws, ¬ (w.1 ≤ b ∧ b < w.1 + 8)) → m' b = m b

theorem HasWords.eq {ws : List (ℕ × ℕ)} {m₁ m₂ : Memory} (h₁ : HasWords ws m m₁)
    (h₂ : HasWords ws m m₂) : m₁ = m₂ := by
  funext b
  by_cases hb : ∃ w ∈ ws, w.1 ≤ b ∧ b < w.1 + 8
  · obtain ⟨w, hw, hlow, hhigh⟩ := hb
    have hsame : m₁.load64 w.1 = m₂.load64 w.1 := by rw [h₁.words w hw, h₂.words w hw]
    exact apply_eq_of_load_eq hsame hlow hhigh
  · have hout : ∀ w ∈ ws, ¬ (w.1 ≤ b ∧ b < w.1 + 8) := fun w hw hin => hb ⟨w, hw, hin⟩
    rw [h₁.frame b hout, h₂.frame b hout]

theorem hasWords_storeWords {ws : List (ℕ × ℕ)} (h : ws.Pairwise fun w w' => Apart w.1 8 w'.1 8) :
    HasWords ws m (m.storeWords ws) := by
  induction ws generalizing m with
  | nil => exact ⟨fun w hw => absurd hw (by simp), fun b _ => rfl⟩
  | cons w ws ih =>
    obtain ⟨hfirst, hrest⟩ := List.pairwise_cons.mp h
    have hafter := ih (m := m.store64 w.1 w.2) hrest
    refine ⟨fun w' hw' => ?_, fun b hb => ?_⟩
    · rcases List.mem_cons.mp hw' with rfl | hmem
      · -- the later words are apart from this one
        rw [← load64_store64_same m w'.1 w'.2]
        refine load64_congr fun b hb hb' => hafter.frame b fun w hw hin => ?_
        have hapart := hfirst w hw
        unfold Apart at hapart
        omega
      · exact hafter.words w' hmem
    · rw [storeWords, List.foldl_cons, ← storeWords,
        hafter.frame b fun w' hw' => hb w' (List.mem_cons_of_mem w hw')]
      exact store64_apply_of_not_mem (hb w (List.mem_cons_self ..))

/-- **Words apart from each other** have their values and nothing else has changed exactly after they
were stored. -/
theorem hasWords_iff {ws : List (ℕ × ℕ)} (h : ws.Pairwise fun w w' => Apart w.1 8 w'.1 8) :
    HasWords ws m m' ↔ m' = m.storeWords ws := by
  constructor
  · exact fun hwords => hwords.eq (hasWords_storeWords h)
  · rintro rfl
    exact hasWords_storeWords h

end Memory

end Cutesugar.Lib
