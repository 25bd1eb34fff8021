import Cutesugar.Kernel.Object.Confinement

/-!
# The buffers of the parser

`ResolveObjectName` copies the first component of a path into 32 bytes and the part behind its first slash
into 256 bytes. The length of a component is looked at before the copy; that of the rest is not.

- `splitName_room`: what the parser makes of any name of which the rest fits.
- `parse_in_buffers_iff`: the names that are parsed within the buffers, at every nested activation.
-/

namespace Cutesugar.Kernel

open Libc

variable {s : State} {name rest : List UInt8} {fuel depth root : ℕ}

/-! ## Names -/

/-- The part behind the first slash fits the buffer `remaining`, where the parser comes to the slash. -/
def ParseRoom (name : List UInt8) : Prop :=
  ∀ c r, name = c ++ 47 :: r → 47 ∉ c → c.length ≤ 32 → r.length ≤ 255

theorem parseRoom_of_length (h : name.length ≤ 255) : ParseRoom name := by
  rintro c r rfl - -
  rw [List.length_append, List.length_cons] at h
  omega

/-- **The parser** on a name with room: nothing, or two strings that end within their buffers or fill the
first one. -/
theorem splitName_room (h : ParseRoom name) (hnul : 0 ∉ name) (rest : List UInt8) :
    splitName (name ++ 0 :: rest) = .ok none ∨
      ∃ c r, c.length ≤ 32 ∧ r.length ≤ 255 ∧ 0 ∉ r ∧
        splitName (name ++ 0 :: rest) = .ok (some (pad 32 c, pad 256 r)) := by
  rcases name_cases name with ⟨c, r, rfl, hslash, hlen⟩ | ⟨hslash, hlen⟩ | hlong
  · obtain ⟨hc, hr⟩ := not_or.mp (List.mem_append.not.mp hnul)
    have hr' : 0 ∉ r := fun hmem => hr (List.mem_cons_of_mem _ hmem)
    have hfits := h c r rfl hslash hlen
    refine .inr ⟨c, r, hlen, hfits, hr', ?_⟩
    rw [List.append_assoc, List.cons_append, splitName_more hslash hc hlen hr', if_pos hfits]
  · exact .inr ⟨name, [], by omega, Nat.zero_le _, List.not_mem_nil, splitName_last hslash hnul hlen⟩
  · obtain ⟨c, b, rest', heq, hmem, hslash, hlen, hb⟩ := hlong rest
    rw [heq]
    exact .inl (splitName_long hslash (fun hzero => hnul (hmem 0 hzero)) hlen hb)

/-! ## Activations -/

/-- No byte was written outside of a buffer, and none read behind the end of a string. -/
def InBuffers (x : Except Fault ℕ) : Prop := x ≠ .error .overflow ∧ x ≠ .error .overread

theorem inBuffers_ok (v : ℕ) : InBuffers (.ok v) := ⟨by simp, by simp⟩

theorem inBuffers_of_error {e : Fault} (h : e = .stuck ∨ e = .null) : InBuffers (.error e) := by
  rcases h with rfl | rfl
  · exact ⟨by simp, by simp⟩
  · exact ⟨by simp, by simp⟩

/-- An activation and what goes on from it. -/
theorem InBuffers.bind {α : Type} {x : Except Fault α} {f : α → Except Fault ℕ}
    (hx : ∀ e, x = .error e → e = .stuck ∨ e = .null) (hf : ∀ a, x = .ok a → InBuffers (f a)) :
    InBuffers (x >>= f) := by
  cases x with
  | error e => exact inBuffers_of_error (hx e rfl)
  | ok a => exact hf a rfl

theorem startDirectory_error {e : Fault} (h : startDirectory s root = .error e) : e = .null := by
  unfold startDirectory currentCwd at h
  split_ifs at h
  exact (Except.error.inj h).symm

/-- **Every activation** on a name with room stays within the buffers: what it passes on fits them. -/
theorem resolveObjectName_inBuffers (h : ParseRoom name) (hnul : 0 ∉ name) (fuel depth root : ℕ)
    (rest : List UInt8) : InBuffers (resolveObjectName fuel s depth root (some (name ++ 0 :: rest))) := by
  induction depth generalizing name root rest with
  | zero => exact inBuffers_of_error (.inl rfl)
  | succ depth ih =>
    rw [resolveObjectName]
    refine InBuffers.bind (fun e he => .inr (startDirectory_error he)) fun d _ => ?_
    rcases splitName_room h hnul rest with hnone | ⟨c, r, hc, hr, hr0, hsome⟩
    · rw [hnone]
      exact inBuffers_ok 0
    · rw [hsome]
      refine InBuffers.bind (fun e he => by cases he) fun split hsplit => ?_
      obtain rfl := Except.ok.inj hsplit
      have hlen : (pad 32 c).length = 32 := length_pad hc
      have hdot : 32 ≤ [46, (0 : UInt8)].length ∨ 0 ∈ [46, (0 : UInt8)] := by decide
      obtain ⟨v, hv, -⟩ := strncmp_spec (.inl hlen.ge) hdot
      -- the nested activation gets what was copied
      have hnested (d : ℕ) : InBuffers (resolveObjectName fuel s depth d (some (pad 256 r))) := by
        rw [pad_eq (by omega)]
        exact ih (parseRoom_of_length hr) hr0 d _
      dsimp only
      rw [hv]
      refine InBuffers.bind (fun e he => by cases he) fun order _ => ?_
      split_ifs with hzero hnull
      · refine InBuffers.bind (fun e he => .inl ?_) fun d _ => hnested d
        cases hroot : objGetRootObject fuel s with
        | none =>
          rw [hroot] at he
          exact (Except.error.inj he).symm
        | some r =>
          rw [hroot] at he
          cases he
      · exact inBuffers_of_error (.inr rfl)
      · refine InBuffers.bind (fun e he => findChild_error hlen he) fun t _ => ?_
        split_ifs with ht hmore
        · exact inBuffers_ok 0
        · exact hnested _
        · exact inBuffers_ok _

/-- The first activation writes over the end of `remaining`. -/
theorem resolveObjectName_overflow (h : ¬ ParseRoom name) (hnul : 0 ∉ name) (hroot : root ≠ 0) :
    resolveObjectName fuel s (depth + 1) root (some (name ++ 0 :: rest)) = .error .overflow := by
  simp only [ParseRoom, not_forall] at h
  obtain ⟨c, r, rfl, hslash, hlen, hlong⟩ := h
  obtain ⟨hc, hr⟩ := not_or.mp (List.mem_append.not.mp hnul)
  have hr' : 0 ∉ r := fun hmem => hr (List.mem_cons_of_mem _ hmem)
  have hstart : startDirectory s root = .ok root := if_neg hroot
  rw [resolveObjectName, hstart, List.append_assoc, List.cons_append, splitName_more hslash hc hlen hr',
    if_neg hlong]
  rfl

/-- **Buffers**: a name is parsed within the buffers, from every directory and at every activation, exactly
if the part behind its first slash has at most 255 bytes or the slash comes too late to be found. -/
theorem parse_in_buffers_iff (s : State) (hnul : 0 ∉ name) :
    (∀ fuel depth root, InBuffers (resolveObjectName fuel s depth root (some (name ++ [0])))) ↔
      ParseRoom name := by
  constructor
  · intro h
    by_contra hroom
    exact (h 0 1 1).1 (resolveObjectName_overflow hroom hnul Nat.one_ne_zero)
  · exact fun h fuel depth root => resolveObjectName_inBuffers h hnul fuel depth root []

/-- `"a/g"`. -/
theorem parse_in_buffers_boot :
    InBuffers (resolveObjectName 8 bootDirectories 8 0x1000 (some ([97, 47, 103] ++ [0]))) :=
  (parse_in_buffers_iff bootDirectories (by decide)).mpr (parseRoom_of_length (by decide)) 8 8 0x1000

/-- A slash with 256 bytes behind it. -/
theorem long_rest_overflows : resolveObjectName 8 bootDirectories 8 0x1000
    (some (97 :: 47 :: List.replicate 256 98 ++ [0])) = .error .overflow := by
  have hroom : ¬ ParseRoom (97 :: 47 :: List.replicate 256 98) := by
    intro hroom
    have hfits := hroom [97] (List.replicate 256 98) rfl (by decide) (by decide)
    rw [List.length_replicate] at hfits
    omega
  refine resolveObjectName_overflow hroom (fun hmem => ?_) (by decide)
  rcases List.mem_cons.mp hmem with heq | hmem
  · exact absurd heq (by decide)
  rcases List.mem_cons.mp hmem with heq | hmem
  · exact absurd heq (by decide)
  · exact absurd (List.eq_of_mem_replicate hmem) (by decide)

end Cutesugar.Kernel
