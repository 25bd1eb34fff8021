import Cutesugar.Kernel.Object.Directory

/-!
# Path names

What the parser of `ResolveObjectName` makes of a path whose components are short: its first
component and the rest in zero-padded buffers, as long as the rest fits.
-/

namespace Cutesugar.Kernel

open Libc

variable {string result name objName remaining c r rest : List UInt8} {start stop n k i : ℕ}

/-! ## Slices -/

/-- A slice that fits is copied, and the rest of the buffer stays. -/
theorem strSliceLoop_eq (hstring : start + k ≤ string.length) (hresult : n + k ≤ result.length) :
    strSliceLoop string k start n result =
      .ok (result.take n ++ (string.drop start).take k ++ result.drop (n + k)) := by
  induction k generalizing start n result with
  | zero => simp [strSliceLoop]
  | succ k ih =>
    have hstart : start < string.length := by omega
    have hn : n < result.length := by omega
    have hstring' : start + 1 + k ≤ string.length := by omega
    have hset : n + 1 + k ≤ (result.set n string[start]).length := by
      rw [List.length_set]
      omega
    rw [strSliceLoop, List.getElem?_eq_getElem hstart]
    simp only [if_pos hn]
    rw [ih hstring' hset, List.drop_eq_getElem_cons hstart, List.take_succ_cons]
    -- the byte written is the last one of the part taken before
    have htake : (result.set n string[start]).take (n + 1) = result.take n ++ [string[start]] := by
      rw [List.take_add_one, List.take_set_of_le le_rfl, List.getElem?_set_self hn]
      rfl
    have hdrop : (result.set n string[start]).drop (n + 1 + k) = result.drop (n + (k + 1)) := by
      rw [List.drop_set_of_lt (by omega), Nat.add_assoc, Nat.add_comm 1 k]
    rw [htake, hdrop, List.append_assoc (result.take n), List.singleton_append]

/-- A slice that does not fit is written over the end of the buffer. -/
theorem strSliceLoop_overflow (hstring : start + k ≤ string.length)
    (hn : n ≤ result.length) (hresult : result.length < n + k) :
    strSliceLoop string k start n result = .error .overflow := by
  induction k generalizing start n result with
  | zero => omega
  | succ k ih =>
    have hstart : start < string.length := by omega
    rw [strSliceLoop, List.getElem?_eq_getElem hstart]
    simp only
    split_ifs with hlt
    · apply ih
      · omega
      · rw [List.length_set]
        omega
      · rw [List.length_set]
        omega
    · rfl

theorem strSliceLoop_length {rounds : ℕ} {bs : List UInt8}
    (h : strSliceLoop string rounds start n result = .ok bs) : bs.length = result.length := by
  induction rounds generalizing start n result with
  | zero =>
    obtain rfl := Except.ok.inj h
    rfl
  | succ rounds ih =>
    rw [strSliceLoop] at h
    cases hread : string[start]? with
    | none => simp [hread] at h
    | some c =>
      simp only [hread] at h
      split_ifs at h
      rw [ih h, List.length_set]

/-! ## Splitting a path -/

/-- The first component ends at a slash, which is looked for one byte further, or at the end of the
string. -/
theorem componentEnd_append {b : UInt8} (hslash : 47 ∉ c) (hnul : 0 ∉ c)
    (hb : b = 47 ∧ i + c.length ≤ 32 ∨ b = 0 ∧ i + c.length < 32) :
    componentEnd (c ++ b :: rest) i = .ok (some (i + c.length)) := by
  induction c generalizing i with
  | nil =>
    rcases hb with ⟨rfl, -⟩ | ⟨rfl, hlen⟩
    · rfl
    · have hi : i ≠ 32 := by
        simp only [List.length_nil] at hlen
        omega
      simp [componentEnd, hi]
  | cons x xs ih =>
    obtain ⟨hx, hxs⟩ := not_or.mp (List.mem_cons.not.mp hslash)
    obtain ⟨hx0, hxs0⟩ := not_or.mp (List.mem_cons.not.mp hnul)
    rw [List.length_cons] at hb ⊢
    have hi : i ≠ 32 := by
      rcases hb with ⟨-, hlen⟩ | ⟨-, hlen⟩
      · omega
      · omega
    have hb' : b = 47 ∧ i + 1 + xs.length ≤ 32 ∨ b = 0 ∧ i + 1 + xs.length < 32 :=
      hb.imp (And.imp_right fun hlen => by omega) (And.imp_right fun hlen => by omega)
    rw [List.cons_append, componentEnd, if_neg (Ne.symm hx), if_neg hi, if_neg (Ne.symm hx0), ih hxs hxs0 hb']
    congr 2
    omega

/-- No slash ends a component of 32 bytes. -/
theorem componentEnd_long {b : UInt8} (hslash : 47 ∉ c) (hnul : 0 ∉ c) (hlen : i + c.length = 32)
    (hb : b ≠ 47) : componentEnd (c ++ b :: rest) i = .ok none := by
  induction c generalizing i with
  | nil =>
    have hi : i = 32 := hlen
    rw [List.nil_append, componentEnd, if_neg hb, if_pos hi]
  | cons x xs ih =>
    obtain ⟨hx, hxs⟩ := not_or.mp (List.mem_cons.not.mp hslash)
    obtain ⟨hx0, hxs0⟩ := not_or.mp (List.mem_cons.not.mp hnul)
    rw [List.length_cons] at hlen
    rw [List.cons_append, componentEnd, if_neg (Ne.symm hx), if_neg (by omega), if_neg (Ne.symm hx0)]
    exact ih hxs hxs0 (by omega)

/-- The buffer of a component. -/
theorem strSlice_component {ys : List UInt8} (hlen : c.length ≤ 32) :
    strSlice (c ++ ys) 0 (c.length - 1) (List.replicate 32 0) = .ok (pad 32 c) := by
  have hrounds : ((c.length : ℤ) - 1 + 1 - (0 : ℕ)).toNat = c.length := by omega
  rw [strSlice, hrounds, strSliceLoop_eq (by simp) (by simpa using hlen)]
  rw [List.take_zero, List.nil_append, List.drop_zero, List.take_left, Nat.zero_add,
    List.drop_replicate, pad]

/-- The last component. -/
theorem splitName_last (hslash : 47 ∉ c) (hnul : 0 ∉ c) (hlen : c.length ≤ 31) :
    splitName (c ++ 0 :: rest) = .ok (some (pad 32 c, pad 256 [])) := by
  have hend : componentEnd (c ++ 0 :: rest) 0 = .ok (some c.length) := by
    rw [componentEnd_append hslash hnul (.inr ⟨rfl, by omega⟩), Nat.zero_add]
  have hrounds : ((c.length : ℤ) + 1 - (c.length + 1 : ℕ)).toNat = 0 := by omega
  have hrest : strSlice (c ++ 0 :: rest) (c.length + 1) c.length (List.replicate 256 0) =
      .ok (pad 256 []) := by
    rw [strSlice, hrounds]
    rfl
  simp only [splitName, hend, bind, Except.bind, strSlice_component (Nat.le_succ_of_le hlen),
    strlen_append hnul, hrest]

/-- A component and the rest behind a slash. -/
theorem splitName_more (hslash : 47 ∉ c) (hnul : 0 ∉ c) (hlen : c.length ≤ 32) (hr : 0 ∉ r) :
    splitName (c ++ 47 :: (r ++ 0 :: rest)) =
      if r.length ≤ 255 then .ok (some (pad 32 c, pad 256 r)) else .error .overflow := by
  have hend : componentEnd (c ++ 47 :: (r ++ 0 :: rest)) 0 = .ok (some c.length) := by
    rw [componentEnd_append hslash hnul (.inl ⟨rfl, by omega⟩), Nat.zero_add]
  have hstrlen : strlen (c ++ 47 :: (r ++ 0 :: rest)) = .ok (c ++ 47 :: r).length := by
    rw [← List.cons_append, ← List.append_assoc]
    apply strlen_append
    simp only [List.mem_append, List.mem_cons, not_or]
    exact ⟨hnul, by decide, hr⟩
  have hrounds : (((c ++ 47 :: r).length : ℤ) + 1 - (c.length + 1 : ℕ)).toNat = r.length + 1 := by
    rw [List.length_append, List.length_cons]
    omega
  have hdrop : (c ++ 47 :: (r ++ 0 :: rest)).drop (c.length + 1) = r ++ 0 :: rest := by
    rw [List.drop_append, List.drop_of_length_le (Nat.le_succ _)]
    simp
  have hroom : c.length + 1 + (r.length + 1) ≤ (c ++ 47 :: (r ++ 0 :: rest)).length := by
    simp only [List.length_append, List.length_cons]
    omega
  simp only [splitName, hend, bind, Except.bind, strSlice_component hlen,
    hstrlen]
  rw [strSlice, hrounds]
  split_ifs with hfits
  · -- the copy takes the NUL along
    have htake : (r ++ 0 :: rest).take (r.length + 1) = r ++ [0] := by
      rw [List.take_append, List.take_of_length_le (Nat.le_succ _)]
      simp
    have hpad : r ++ [0] ++ (List.replicate 256 0).drop (r.length + 1) = pad 256 r := by
      rw [pad_eq (by omega), List.drop_replicate, List.append_assoc, List.singleton_append,
        Nat.sub_sub]
    rw [strSliceLoop_eq hroom (by rw [List.length_replicate]; omega), hdrop, htake]
    simp only [List.take_zero, List.nil_append, Nat.zero_add, hpad]
  · rw [strSliceLoop_overflow hroom (Nat.zero_le _) (by rw [List.length_replicate]; omega)]

/-- A name whose first component is too long. -/
theorem splitName_long {b : UInt8} (hslash : 47 ∉ c) (hnul : 0 ∉ c) (hlen : c.length = 32) (hb : b ≠ 47) :
    splitName (c ++ b :: rest) = .ok none := by
  have hend : componentEnd (c ++ b :: rest) 0 = .ok none :=
    componentEnd_long hslash hnul (by omega) hb
  simp only [splitName, hend, bind, Except.bind]

/-- **The forms of a name**: a component with a slash behind it, a short component alone, or more bytes
than a component may have. -/
theorem name_cases (name : List UInt8) :
    (∃ c r, name = c ++ 47 :: r ∧ 47 ∉ c ∧ c.length ≤ 32) ∨ (47 ∉ name ∧ name.length ≤ 31) ∨
      ∀ rest, ∃ c b rest', name ++ 0 :: rest = c ++ b :: rest' ∧ (∀ x ∈ c, x ∈ name) ∧ 47 ∉ c ∧
        c.length = 32 ∧ b ≠ 47 := by
  by_cases hmem : 47 ∈ name
  · obtain ⟨first, r, rfl, hslash⟩ := List.eq_append_cons_of_mem hmem
    by_cases hlen : first.length ≤ 32
    · exact .inl ⟨first, r, rfl, hslash, hlen⟩
    · -- the byte behind the first 32 is no slash
      refine .inr (.inr fun rest => ?_)
      have hlt : 32 < first.length := by omega
      refine ⟨first.take 32, first[32], first.drop 33 ++ 47 :: (r ++ 0 :: rest), ?_, ?_, ?_, ?_, ?_⟩
      · rw [← List.cons_append, ← List.drop_eq_getElem_cons hlt, ← List.append_assoc, List.take_append_drop,
          List.append_assoc, List.cons_append]
      · exact fun x hx => List.mem_append_left _ (List.mem_of_mem_take hx)
      · exact fun hx => hslash (List.mem_of_mem_take hx)
      · rw [List.length_take]
        omega
      · exact fun heq => hslash (heq ▸ List.getElem_mem hlt)
  · rcases Nat.lt_or_ge name.length 32 with hlt | hge
    · exact .inr (.inl ⟨hmem, Nat.le_of_lt_succ hlt⟩)
    · refine .inr (.inr fun rest => ?_)
      have hsplit : name ++ 0 :: rest = name.take 32 ++ (name.drop 32 ++ 0 :: rest) := by
        rw [← List.append_assoc, List.take_append_drop]
      obtain ⟨b, rest', hrest, hb⟩ : ∃ b rest', name.drop 32 ++ 0 :: rest = b :: rest' ∧ b ≠ 47 := by
        cases hdrop : name.drop 32 with
        | nil => exact ⟨0, rest, rfl, by decide⟩
        | cons b bs =>
          refine ⟨b, bs ++ 0 :: rest, rfl, ?_⟩
          rintro rfl
          apply hmem
          apply List.mem_of_mem_drop
          rw [hdrop]
          exact List.mem_cons_self ..
      refine ⟨name.take 32, b, rest', by rw [hsplit, hrest], fun x hx => List.mem_of_mem_take hx,
        fun hx => hmem (List.mem_of_mem_take hx), ?_, hb⟩
      rw [List.length_take]
      omega

theorem splitName_length (h : splitName name = .ok (some (objName, remaining))) :
    objName.length = 32 ∧ remaining.length = 256 := by
  simp only [splitName, bind, Except.bind] at h
  split at h
  · exact absurd h (by simp)
  · split at h
    · exact absurd h (by simp)
    · split at h
      · exact absurd h (by simp)
      · rename_i hobj
        split at h
        · exact absurd h (by simp)
        · split at h
          · exact absurd h (by simp)
          · rename_i hrem
            obtain ⟨rfl, rfl⟩ := Prod.mk.inj (Option.some.inj (Except.ok.inj h))
            exact ⟨by rw [strSliceLoop_length hobj, List.length_replicate],
              by rw [strSliceLoop_length hrem, List.length_replicate]⟩

/-- The buffer `remaining` starts with a byte if something is behind the slash. -/
theorem head_pad_iff (hnul : 0 ∉ r) (hlen : r.length ≤ 255) : (pad 256 r).head? ≠ some 0 ↔ r ≠ [] := by
  rw [pad_eq (Nat.lt_succ_of_le hlen)]
  cases r with
  | nil => exact iff_of_false (fun hne => hne rfl) fun hne => hne rfl
  | cons x r =>
    obtain ⟨hx, -⟩ := not_or.mp (List.mem_cons.not.mp hnul)
    refine iff_of_true (fun heq => hx ?_) (List.cons_ne_nil _ _)
    exact (Option.some.inj heq).symm

/-! ## Components -/

/-- A component of a path: 1 to 31 bytes, neither NUL nor slash, and not the single dot. -/
structure IsComponent (c : List UInt8) : Prop where
  ne_nil : c ≠ []
  length : c.length ≤ 31
  nul : 0 ∉ c
  slash : 47 ∉ c
  dot : c ≠ [46]

instance (c : List UInt8) : Decidable (IsComponent c) :=
  decidable_of_iff (c ≠ [] ∧ c.length ≤ 31 ∧ 0 ∉ c ∧ 47 ∉ c ∧ c ≠ [46])
    ⟨fun ⟨h₁, h₂, h₃, h₄, h₅⟩ => ⟨h₁, h₂, h₃, h₄, h₅⟩,
      fun ⟨h₁, h₂, h₃, h₄, h₅⟩ => ⟨h₁, h₂, h₃, h₄, h₅⟩⟩

/-- The path with the given components, joined by slashes. -/
def joinPath : List (List UInt8) → List UInt8
  | [] => []
  | [c] => c
  | c :: cs => c ++ 47 :: joinPath cs

theorem joinPath_cons {cs : List (List UInt8)} (hcs : cs ≠ []) :
    joinPath (c :: cs) = c ++ 47 :: joinPath cs := by
  cases cs with
  | nil => exact absurd rfl hcs
  | cons c' cs => rfl

theorem joinPath_nul {cs : List (List UInt8)} (h : ∀ c ∈ cs, IsComponent c) :
    0 ∉ joinPath cs := by
  induction cs with
  | nil => exact List.not_mem_nil
  | cons c cs ih =>
    have hc := h c (List.mem_cons_self ..)
    have hcs := ih fun x hx => h x (List.mem_cons_of_mem c hx)
    cases cs with
    | nil => exact hc.nul
    | cons c' cs =>
      rw [joinPath_cons (by simp)]
      simp only [List.mem_append, List.mem_cons, not_or]
      exact ⟨hc.nul, by decide, hcs⟩

theorem joinPath_ne_nil {cs : List (List UInt8)} (h : ∀ c ∈ cs, IsComponent c) (hne : cs ≠ []) :
    joinPath cs ≠ [] := by
  cases cs with
  | nil => exact absurd rfl hne
  | cons c cs =>
    have hc := h c (List.mem_cons_self ..)
    cases cs with
    | nil => exact hc.ne_nil
    | cons c' cs => simp [joinPath]

/-- A component is not taken for the dot. -/
theorem IsComponent.strncmp_dot (h : IsComponent c) :
    ∃ v, strncmp (pad 32 c) [46, 0] 32 = .ok v ∧ v ≠ 0 := by
  have hlen := h.length
  have hpad : (pad 32 c).length = 32 := length_pad (by omega)
  have hdot : 32 ≤ [46, (0 : UInt8)].length ∨ 0 ∈ [46, (0 : UInt8)] := by decide
  obtain ⟨v, hv, hiff⟩ := strncmp_spec (.inl hpad.ge) hdot
  refine ⟨v, hv, fun hzero => h.dot ?_⟩
  have hsame := hiff.mp hzero
  rw [List.take_of_length_le hpad.le, cString_pad (by omega) h.nul] at hsame
  rw [hsame]
  decide

end Cutesugar.Kernel
