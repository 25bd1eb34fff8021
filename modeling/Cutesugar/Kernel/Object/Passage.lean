import Cutesugar.Kernel.Object.Namespace
import Mathlib.Data.List.TakeWhile

/-!
# What a name comes to (`ResolveObjectName`)

A name of any bytes is read up to its first NUL, one component at a time. The single dot leads to the root object,
or back to the working directory without the permission; any other component leads to the first entry with its name.
The name is read on only from a directory, and only if something is behind the slash.

- `Passes`: the objects that a name comes to.
- `directory_iff_passes`: a resolution ends in a directory exactly if the name comes to nothing else.
-/

namespace Cutesugar.Kernel

open Lib Libc

variable {s : State} {fuel depth root d o m t a : ℕ} {name objName remaining c r rest : List UInt8}

/-! ## The parts of a name -/

/-- The bytes in front of the first slash. -/
def firstPart (name : List UInt8) : List UInt8 := name.takeWhile (· != 47)

/-- The bytes behind the first slash. -/
def restPart (name : List UInt8) : List UInt8 := name.drop ((firstPart name).length + 1)

/-- The first component is looked for: it has at most 31 bytes, or 32 with a slash behind. -/
def Searched (name : List UInt8) : Prop :=
  (firstPart name).length ≤ 31 ∨ 47 ∈ name ∧ (firstPart name).length = 32

theorem firstPart_append (hslash : 47 ∉ c) : firstPart (c ++ 47 :: r) = c := by
  induction c with
  | nil => rfl
  | cons x c ih =>
    obtain ⟨hx, hc⟩ := not_or.mp (List.mem_cons.not.mp hslash)
    rw [firstPart, List.cons_append, List.takeWhile_cons_of_pos (by simpa using Ne.symm hx)]
    exact congrArg (x :: ·) (ih hc)

theorem firstPart_of_notMem (hslash : 47 ∉ c) : firstPart c = c := by
  rw [firstPart, List.takeWhile_eq_self_iff]
  intro x hx
  have hne : x ≠ 47 := fun heq => hslash (heq ▸ hx)
  simpa using hne

theorem restPart_append (hslash : 47 ∉ c) : restPart (c ++ 47 :: r) = r := by
  rw [restPart, firstPart_append hslash, List.drop_append, List.drop_of_length_le (Nat.le_succ _),
    Nat.add_sub_cancel_left]
  rfl

theorem restPart_of_notMem (hslash : 47 ∉ c) : restPart c = [] := by
  rw [restPart, firstPart_of_notMem hslash]
  exact List.drop_of_length_le (Nat.le_succ _)

/-- A string that ends is its bytes up to the NUL. -/
theorem eq_cString_append (h : 0 ∈ name) : ∃ rest, name = cString name ++ 0 :: rest ∧ 0 ∉ cString name := by
  obtain ⟨first, rest, rfl, hnul⟩ := List.eq_append_cons_of_mem h
  rw [cString_append hnul]
  exact ⟨rest, rfl, hnul⟩

theorem strlen_of_notMem (h : 0 ∉ name) : strlen name = .error .overread := by
  induction name with
  | nil => rfl
  | cons x name ih =>
    obtain ⟨hx, hname⟩ := not_or.mp (List.mem_cons.not.mp h)
    rw [strlen, if_neg (Ne.symm hx), ih hname]
    rfl

/-- Without a slash or a NUL the loop reads behind the end. -/
theorem componentEnd_of_notMem {i : ℕ} (hslash : 47 ∉ c) (hnul : 0 ∉ c) (hlen : i + c.length ≤ 32) :
    componentEnd c i = .error .overread := by
  induction c generalizing i with
  | nil => rfl
  | cons x c ih =>
    obtain ⟨hx, hc⟩ := not_or.mp (List.mem_cons.not.mp hslash)
    obtain ⟨hx0, hc0⟩ := not_or.mp (List.mem_cons.not.mp hnul)
    rw [List.length_cons] at hlen
    rw [componentEnd, if_neg (Ne.symm hx), if_neg (by omega), if_neg (Ne.symm hx0)]
    exact ih hc hc0 (by omega)

/-- A first component that is looked for, with what is behind it. -/
theorem searched_cases (h : Searched name) :
    (∃ c r, name = c ++ 47 :: r ∧ 47 ∉ c ∧ c.length ≤ 32) ∨ 47 ∉ name ∧ name.length ≤ 31 := by
  by_cases hmem : 47 ∈ name
  · obtain ⟨c, r, rfl, hslash⟩ := List.eq_append_cons_of_mem hmem
    rw [Searched, firstPart_append hslash] at h
    exact .inl ⟨c, r, rfl, hslash, by omega⟩
  · rw [Searched, firstPart_of_notMem hmem] at h
    exact .inr ⟨hmem, h.resolve_right fun hand => hmem hand.1⟩

/-- **The parser** gives up only on a name whose first component is too long. -/
theorem not_searched_of_splitName (h : splitName name = .ok none) : ¬ Searched (cString name) := by
  intro hsearched
  obtain ⟨end', hend, hrest⟩ := bind_eq_ok.mp h
  have hnone : componentEnd name 0 = .ok none := by
    cases end' with
    | none => exact hend
    | some stop =>
      obtain ⟨objName, -, h⟩ := bind_eq_ok.mp hrest
      obtain ⟨len, -, h⟩ := bind_eq_ok.mp h
      obtain ⟨remaining, -, h⟩ := bind_eq_ok.mp h
      cases h
  by_cases hnul : 0 ∈ name
  · obtain ⟨rest, heq, hnul⟩ := eq_cString_append hnul
    rw [heq] at hnone
    rcases searched_cases hsearched with ⟨c, r, hname, hslash, hlen⟩ | ⟨hslash, hlen⟩
    · rw [hname] at hnone hnul
      have hc := fun hmem => hnul (List.mem_append_left _ hmem)
      rw [List.append_assoc, List.cons_append,
        componentEnd_append hslash hc (.inl ⟨rfl, by omega⟩)] at hnone
      cases hnone
    · rw [componentEnd_append hslash hnul (.inr ⟨rfl, by omega⟩)] at hnone
      cases hnone
  · -- no NUL: the loop stops at the slash or behind the end
    rw [cString_of_notMem hnul] at hsearched
    rcases searched_cases hsearched with ⟨c, r, rfl, hslash, hlen⟩ | ⟨hslash, hlen⟩
    · rw [componentEnd_append hslash (fun hmem => hnul (List.mem_append_left _ hmem))
        (.inl ⟨rfl, by omega⟩)] at hnone
      cases hnone
    · rw [componentEnd_of_notMem hslash hnul (by omega)] at hnone
      cases hnone

/-- What the parser takes out of a name. -/
structure Parsed (name objName remaining : List UInt8) : Prop where
  searched : Searched (cString name)
  nul : 0 ∉ firstPart (cString name) ∧ 0 ∉ restPart (cString name)
  length : (firstPart (cString name)).length ≤ 32 ∧ (restPart (cString name)).length ≤ 255
  objName : objName = pad 32 (firstPart (cString name))
  remaining : remaining = pad 256 (restPart (cString name))

theorem parsed_of_splitName (h : splitName name = .ok (some (objName, remaining))) : Parsed name objName remaining := by
  -- a name without an end is read past its buffer
  have hmem : 0 ∈ name := by
    by_contra hnul
    obtain ⟨stop, -, hrest⟩ := bind_eq_ok.mp h
    cases stop with
    | none => cases hrest
    | some stop =>
      obtain ⟨objName, -, hrest⟩ := bind_eq_ok.mp hrest
      obtain ⟨len, hlen, -⟩ := bind_eq_ok.mp hrest
      rw [strlen_of_notMem hnul] at hlen
      cases hlen
  obtain ⟨rest, heq, hnul⟩ := eq_cString_append hmem
  rw [heq] at h
  rcases name_cases (cString name) with ⟨c, r, hname, hslash, hlen⟩ | ⟨hslash, hlen⟩ | hlong
  · have hfirst : firstPart (cString name) = c := by rw [hname, firstPart_append hslash]
    have hrest : restPart (cString name) = r := by rw [hname, restPart_append hslash]
    have hslashed : 47 ∈ cString name := by
      rw [hname]
      exact List.mem_append_right _ (List.mem_cons_self ..)
    rw [hname] at hnul
    obtain ⟨hc, hr⟩ := not_or.mp (List.mem_append.not.mp hnul)
    have hr' : 0 ∉ r := fun hzero => hr (List.mem_cons_of_mem _ hzero)
    rw [hname, List.append_assoc, List.cons_append, splitName_more hslash hc hlen hr'] at h
    split_ifs at h with hfits
    obtain ⟨rfl, rfl⟩ := Prod.mk.inj (Option.some.inj (Except.ok.inj h))
    refine ⟨?_, by rw [hfirst, hrest]; exact ⟨hc, hr'⟩, by rw [hfirst, hrest]; exact ⟨hlen, hfits⟩,
      by rw [hfirst], by rw [hrest]⟩
    rw [Searched, hfirst]
    rcases Nat.lt_or_ge c.length 32 with hlt | hge
    · exact .inl (Nat.le_of_lt_succ hlt)
    · exact .inr ⟨hslashed, hlen.antisymm hge⟩
  · have hfirst : firstPart (cString name) = cString name := firstPart_of_notMem hslash
    have hrest : restPart (cString name) = [] := restPart_of_notMem hslash
    rw [splitName_last hslash hnul hlen] at h
    obtain ⟨rfl, rfl⟩ := Prod.mk.inj (Option.some.inj (Except.ok.inj h))
    refine ⟨?_, by rw [hfirst, hrest]; exact ⟨hnul, List.not_mem_nil⟩, ?_, by rw [hfirst], by rw [hrest]⟩
    · rw [Searched, hfirst]
      exact .inl hlen
    · rw [hfirst, hrest]
      exact ⟨Nat.le_succ_of_le hlen, Nat.zero_le _⟩
  · obtain ⟨c, b, rest', hname, hbytes, hslash, hlen, hb⟩ := hlong rest
    rw [hname, splitName_long hslash (fun hzero => hnul (hbytes 0 hzero)) hlen hb] at h
    cases h

/-! ## Entries -/

/-- The first entry from `a` on with a name is that of the object `o`. -/
inductive FirstEntry (s : State) (c : List UInt8) : ℕ → ℕ → Prop where
  | here {a : ℕ} (ha : a ≠ 0) (hitem : (s.lists a).item ≠ 0) (hname : childName s (s.lists a).item = c) :
    FirstEntry s c a (s.lists a).item
  | next {a o : ℕ} (ha : a ≠ 0) (hitem : (s.lists a).item ≠ 0) (hname : childName s (s.lists a).item ≠ c)
    (hrest : FirstEntry s c (s.nextEntry a) o) : FirstEntry s c a o

theorem FirstEntry.nonnull (h : FirstEntry s c a o) : a ≠ 0 := by
  cases h with
  | here ha => exact ha
  | next ha => exact ha

/-- **The search** comes to the first entry with the name, or to the end where there is none. -/
theorem findChild_first_iff (hlen : objName.length = 32) (h : findChild s objName fuel a = .ok t) :
    FirstEntry s (cString objName) a o ↔ t ≠ 0 ∧ (s.lists t).item = o := by
  induction fuel generalizing a with
  | zero =>
    rw [findChild] at h
    split_ifs at h with ha
    obtain rfl := Except.ok.inj h
    exact iff_of_false (fun hfirst => hfirst.nonnull ha) fun hand => hand.1 rfl
  | succ fuel ih =>
    rw [findChild] at h
    split_ifs at h with ha hitem
    · obtain rfl := Except.ok.inj h
      exact iff_of_false (fun hfirst => hfirst.nonnull ha) fun hand => hand.1 rfl
    · obtain ⟨v, hv, hiff⟩ := strncmp_childName (s := s) hlen (s.lists a).item
      simp only [hv, bind, Except.bind] at h
      split_ifs at h with hzero
      · obtain rfl := Except.ok.inj h
        constructor
        · intro hfirst
          cases hfirst with
          | here => exact ⟨ha, rfl⟩
          | next _ _ hname => exact absurd (hiff.mp hzero) hname
        · rintro ⟨-, rfl⟩
          exact .here ha hitem (hiff.mp hzero)
      · have hname : childName s (s.lists a).item ≠ cString objName := fun heq => hzero (hiff.mpr heq)
        rw [← ih h]
        constructor
        · intro hfirst
          cases hfirst with
          | here _ _ heq => exact absurd heq hname
          | next _ _ _ hrest => exact hrest
        · exact .next ha hitem hname

/-! ## Objects on the way -/

/-- The directory that a name is read from. -/
def State.origin (s : State) (root : ℕ) : ℕ := if root = 0 then (s.tasks (getCurrentProcess s)).cwd else root

/-- The directory that the single dot leads to. -/
def State.dot (fuel : ℕ) (s : State) : ℕ :=
  s.origin (if kernelCheckToken fuel s 1 = some 1 then s.rootObject else 0)

/-- The name, read from `d` on, comes to the object `o`: at its end or on its way. -/
inductive Passes (fuel : ℕ) (s : State) : ℕ → List UInt8 → ℕ → Prop where
  | dot {d o : ℕ} {name : List UInt8} (hdot : firstPart name = [46])
    (hrest : Passes fuel s (s.dot fuel) (restPart name) o) : Passes fuel s d name o
  | child {d o : ℕ} {name : List UInt8} (hsearched : Searched name) (hdot : firstPart name ≠ [46])
    (hfirst : FirstEntry s (firstPart name) (s.objects d).headerList o) : Passes fuel s d name o
  | further {d m o : ℕ} {name : List UInt8} (hsearched : Searched name) (hdot : firstPart name ≠ [46])
    (hfirst : FirstEntry s (firstPart name) (s.objects d).headerList m)
    (htype : (s.objects m).header.type = 1) (hmore : restPart name ≠ [])
    (hrest : Passes fuel s m (restPart name) o) : Passes fuel s d name o

theorem passes_dot_iff (hdot : firstPart name = [46]) :
    Passes fuel s d name o ↔ Passes fuel s (s.dot fuel) (restPart name) o := by
  constructor
  · intro h
    cases h with
    | dot _ hrest => exact hrest
    | child _ hne => exact absurd hdot hne
    | further _ hne => exact absurd hdot hne
  · exact .dot hdot

theorem Passes.searched (h : Passes fuel s d name o) : Searched name := by
  cases h with
  | dot hdot =>
    rw [Searched, hdot]
    exact .inl (by decide)
  | child hsearched => exact hsearched
  | further hsearched => exact hsearched

/-- What a component comes to, and the rest from there. -/
theorem passes_child_iff (hsearched : Searched name) (hdot : firstPart name ≠ [46]) :
    Passes fuel s d name o ↔ ∃ m, FirstEntry s (firstPart name) (s.objects d).headerList m ∧
      (o = m ∨ (s.objects m).header.type = 1 ∧ restPart name ≠ [] ∧ Passes fuel s m (restPart name) o) := by
  constructor
  · intro h
    cases h with
    | dot heq => exact absurd heq hdot
    | child _ _ hfirst => exact ⟨o, hfirst, .inl rfl⟩
    | further _ _ hfirst htype hmore hrest => exact ⟨_, hfirst, .inr ⟨htype, hmore, hrest⟩⟩
  · rintro ⟨m, hfirst, rfl | ⟨htype, hmore, hrest⟩⟩
    · exact .child hsearched hdot hfirst
    · exact .further hsearched hdot hfirst htype hmore hrest

/-! ## Resolution -/

theorem startDirectory_ok (h : startDirectory s root = .ok d) : d = s.origin root := by
  unfold startDirectory currentCwd at h
  rw [State.origin]
  split_ifs at h ⊢
  · exact (Except.ok.inj h).symm
  · exact (Except.ok.inj h).symm

/-- The comparison with the single dot. -/
theorem strncmp_dot_iff (hlen : c.length ≤ 32) (hnul : 0 ∉ c) {v : ℤ}
    (h : strncmp (pad 32 c) [46, 0] 32 = .ok v) :
    v = 0 ↔ c = [46] := by
  have hpad : (pad 32 c).length = 32 := length_pad hlen
  have hdot : 32 ≤ [46, (0 : UInt8)].length ∨ 0 ∈ [46, (0 : UInt8)] := by decide
  obtain ⟨w, hw, hiff⟩ := strncmp_spec (.inl hpad.ge) hdot
  obtain rfl : v = w := Except.ok.inj (h.symm.trans hw)
  rw [hiff, List.take_of_length_le hpad.le, cString_pad_of_le hlen hnul]
  rfl

/-- The check of a permission answers yes or no. -/
theorem kernelCheckToken_cases {permission : UInt8} {v : ℕ} (h : kernelCheckToken fuel s permission = some v) :
    v = 1 ∨ v = 0 := by
  simp only [kernelCheckToken] at h
  split_ifs at h with hid
  · exact .inl (Option.some.inj h).symm
  · obtain ⟨task, -, h⟩ := Option.bind_eq_some_iff.mp h
    split_ifs at h with htask hgranted
    · exact .inl (Option.some.inj h).symm
    · exact .inr (Option.some.inj h).symm

theorem origin_objGetRootObject {g : ℕ}
    (h : (objGetRootObject fuel s).elim (Except.error Fault.stuck) Except.ok = .ok g) :
    s.origin g = s.dot fuel := by
  rw [State.dot]
  cases hcheck : kernelCheckToken fuel s 1 with
  | none =>
    rw [objGetRootObject, hcheck] at h
    cases h
  | some v =>
    rw [objGetRootObject, hcheck] at h
    obtain rfl := Except.ok.inj h
    rcases kernelCheckToken_cases hcheck with rfl | rfl
    · rfl
    · rfl

/-- **A resolution** that returns ends in a directory, or nowhere, exactly if every object that the name comes to is
a directory. -/
theorem directory_iff_passes
    (h : resolveObjectName fuel s depth root (some name) = .ok o) :
    (o ≠ 0 → (s.objects o).header.type = 1) ↔
      ∀ m, Passes fuel s (s.origin root) (cString name) m → (s.objects m).header.type = 1 := by
  induction depth generalizing root name with
  | zero => cases h
  | succ depth ih =>
    rw [resolveObjectName] at h
    obtain ⟨d, hd, h⟩ := bind_eq_ok.mp h
    obtain rfl := startDirectory_ok hd
    obtain ⟨parts, hparts, h⟩ := bind_eq_ok.mp h
    cases parts with
    | none =>
      -- the component is too long: nothing is looked for
      obtain rfl := Except.ok.inj h
      refine iff_of_true (fun hne => absurd rfl hne) fun m hm => ?_
      exact absurd hm.searched (not_searched_of_splitName hparts)
    | some parts =>
      obtain ⟨objName, remaining⟩ := parts
      obtain ⟨hsearched, ⟨hnul, hnul'⟩, ⟨hlen, hlen'⟩, rfl, rfl⟩ := parsed_of_splitName hparts
      obtain ⟨order, horder, h⟩ := bind_eq_ok.mp h
      have hdot := strncmp_dot_iff hlen hnul horder
      have hremaining : cString (pad 256 (restPart (cString name))) = restPart (cString name) :=
        cString_pad (Nat.lt_succ_of_le hlen') hnul'
      split_ifs at h with hzero hnull
      · obtain ⟨g, hg, h⟩ := bind_eq_ok.mp h
        have hrest := ih h
        rw [hremaining] at hrest
        rw [hrest]
        simp only [passes_dot_iff (hdot.mp hzero)]
        rw [origin_objGetRootObject hg]
      · -- the entry found, if there is one, is what the component comes to
        obtain ⟨t, ht, h⟩ := bind_eq_ok.mp h
        have hpad : (pad 32 (firstPart (cString name))).length = 32 := length_pad hlen
        have hfirst (m : ℕ) := findChild_first_iff (o := m) hpad ht
        rw [cString_pad_of_le hlen hnul] at hfirst
        simp only [passes_child_iff hsearched fun heq => hzero (hdot.mpr heq), hfirst]
        have hmore := head_pad_iff hnul' hlen'
        split_ifs at h with hend hgo
        · obtain rfl := Except.ok.inj h
          refine iff_of_true (fun hne => absurd rfl hne) ?_
          rintro m ⟨m', ⟨hne, -⟩, -⟩
          exact absurd hend hne
        · have hrest := ih h
          obtain ⟨hitem, -⟩ := (findChild_spec hpad ht).2 hend
          rw [hremaining, State.origin, if_neg hitem] at hrest
          rw [hrest]
          constructor
          · rintro hall m ⟨m', ⟨-, rfl⟩, rfl | ⟨-, -, hm⟩⟩
            · exact hgo.2
            · exact hall m hm
          · exact fun hall m hm => hall m ⟨_, ⟨hend, rfl⟩, .inr ⟨hgo.2, hmore.mp hgo.1, hm⟩⟩
        · obtain rfl := Except.ok.inj h
          obtain ⟨hitem, -⟩ := (findChild_spec hpad ht).2 hend
          constructor
          · rintro htype m ⟨m', ⟨-, rfl⟩, rfl | ⟨hm', hne, -⟩⟩
            · exact htype hitem
            · exact absurd ⟨hmore.mpr hne, hm'⟩ hgo
          · exact fun hall _ => hall _ ⟨_, ⟨hend, rfl⟩, .inl rfl⟩

end Cutesugar.Kernel
