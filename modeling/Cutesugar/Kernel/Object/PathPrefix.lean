import Cutesugar.Kernel.Object.PathBuffers
import Cutesugar.Kernel.Object.PathSoundness

/-!
# Prefixes of paths

Whether `ResolveObjectName` accepts a component depends on what stands behind it: a slash is looked for one
byte further than the end of the string, and a dot at the end goes on at the root object with an empty name.

- `resolveObjectName_first`: a path that goes on behind a component finds the component.
- `prefixClosed_iff`: the components that are found alone wherever a path goes on behind them.
-/

namespace Cutesugar.Kernel

open Lib Libc

variable {s s' : State} {p q name : List UInt8} {fuel depth root d o : ℕ}

/-- A name resolves to an object. -/
def ReturnsObject (s : State) (root : ℕ) (name : List UInt8) : Prop :=
  ∃ fuel depth o, o ≠ 0 ∧ resolveObjectName fuel s depth root (some (name ++ [0])) = .ok o

/-- In every tree the component resolves to an object, from each directory from which some path goes on
behind it. -/
def PrefixClosed (p : List UInt8) : Prop :=
  ∀ s root q, ObjectTree s root → root ≠ 0 → (s.objects root).header.type = 1 → q ≠ [] → 0 ∉ q →
    q.length ≤ 255 → ReturnsObject s root (p ++ 47 :: q) → ReturnsObject s root p

/-! ## Components alone -/

/-- A component of 32 bytes is not looked for when it stands alone. -/
theorem not_returnsObject_long (hnul : 0 ∉ p) (hslash : 47 ∉ p) (hlen : 32 ≤ p.length) :
    ¬ ReturnsObject s root p := by
  rintro ⟨fuel, depth, o, ho, hresolve⟩
  cases depth with
  | zero => cases hresolve
  | succ depth =>
    rw [resolveObjectName] at hresolve
    obtain ⟨r, -, hresolve⟩ := bind_eq_ok.mp hresolve
    rcases name_cases p with ⟨c, r, rfl, -, -⟩ | ⟨-, hshort⟩ | hlong
    · exact hslash (List.mem_append_right _ (List.mem_cons_self ..))
    · omega
    · obtain ⟨c, b, rest, heq, hmem, hcslash, hclen, hb⟩ := hlong []
      rw [heq, splitName_long hcslash (fun hzero => hnul (hmem 0 hzero)) hclen hb] at hresolve
      exact ho (Except.ok.inj hresolve).symm

/-- **The first component** of a path that resolves: with at most 31 bytes it is found alone. -/
theorem resolveObjectName_first (hp : IsComponent p) (hq : 0 ∉ q) (ho : o ≠ 0)
    (h : resolveObjectName fuel s depth root (some (p ++ 47 :: q ++ [0])) = .ok o) :
    ∃ o', o' ≠ 0 ∧ resolveObjectName fuel s depth root (some (p ++ [0])) = .ok o' := by
  cases depth with
  | zero => cases h
  | succ depth =>
    obtain ⟨v, hv, hdot⟩ := hp.strncmp_dot
    rw [resolveObjectName, List.append_assoc, List.cons_append,
      splitName_more hp.slash hp.nul (Nat.le_succ_of_le hp.length) hq] at h
    rw [resolveObjectName, splitName_last hp.slash hp.nul hp.length]
    obtain ⟨r, hr, h⟩ := bind_eq_ok.mp h
    rw [hr]
    by_cases hfits : q.length ≤ 255
    · rw [if_pos hfits] at h
      -- the same component is compared with the same entries
      simp only [bind, Except.bind, hv, if_neg hdot] at h ⊢
      by_cases hnull : r = 0
      · rw [if_pos hnull] at h
        cases h
      rw [if_neg hnull] at h ⊢
      cases hfind : findChild s (pad 32 p) fuel (s.objects r).headerList with
      | error e => simp [hfind] at h
      | ok t =>
        simp only [hfind] at h ⊢
        by_cases ht : t = 0
        · rw [if_pos ht] at h
          exact absurd (Except.ok.inj h).symm ho
        · have hlen : (pad 32 p).length = 32 := length_pad (Nat.le_succ_of_le hp.length)
          obtain ⟨-, hlast⟩ := findChild_spec hlen hfind
          have hend : ¬ ((pad 256 []).head? ≠ some (0 : UInt8) ∧ (s.objects (s.lists t).item).header.type = 1) :=
            fun hand => hand.1 rfl
          rw [if_neg ht, if_neg hend]
          exact ⟨_, (hlast ht).1, rfl⟩
    · rw [if_neg hfits] at h
      obtain ⟨r', hr', -⟩ := bind_eq_ok.mp h
      cases hr'

/-- Behind more than 32 bytes nothing is found. -/
theorem not_returnsObject_longer (hnul : 0 ∉ p) (hslash : 47 ∉ p) (hlen : 32 < p.length) :
    ¬ ReturnsObject s root (p ++ 47 :: q) := by
  rintro ⟨fuel, depth, o, ho, hresolve⟩
  cases depth with
  | zero => cases hresolve
  | succ depth =>
    rw [resolveObjectName] at hresolve
    obtain ⟨r, -, hresolve⟩ := bind_eq_ok.mp hresolve
    have hp : p = p.take 32 ++ p[32] :: p.drop 33 := by
      rw [← List.drop_eq_getElem_cons hlen, List.take_append_drop]
    have hsplit : p ++ 47 :: q ++ [(0 : UInt8)] = p.take 32 ++ p[32] :: (p.drop 33 ++ 47 :: q ++ [0]) :=
      calc p ++ 47 :: q ++ [(0 : UInt8)]
          = p.take 32 ++ p[32] :: p.drop 33 ++ 47 :: q ++ [0] := by rw [← hp]
        _ = p.take 32 ++ p[32] :: (p.drop 33 ++ 47 :: q ++ [0]) := by
          simp only [List.append_assoc, List.cons_append]
    have hclen : (p.take 32).length = 32 := by
      rw [List.length_take]
      omega
    rw [hsplit, splitName_long (fun hmem => hslash (List.mem_of_mem_take hmem))
      (fun hmem => hnul (List.mem_of_mem_take hmem)) hclen
      fun heq => hslash (heq ▸ List.getElem_mem hlen)] at hresolve
    exact ho (Except.ok.inj hresolve).symm

/-! ## Trees for the components that are not found alone -/

/-- An edge depends on the types, the lists and the entries. -/
theorem edge_of_same (htype : ∀ d, (s'.objects d).header.type = (s.objects d).header.type)
    (hlist : ∀ d, (s'.objects d).headerList = (s.objects d).headerList) (hlists : s'.lists = s.lists)
    (h : Edge s' d o) : Edge s d o := by
  obtain ⟨hdirectory, t, ⟨ht, nodes, hchain, hnodes⟩, rfl⟩ := h
  have hnext : s'.nextEntry = s.nextEntry := by
    funext x
    rw [State.nextEntry, State.nextEntry, hlists]
  rw [htype] at hdirectory
  rw [hlist, hnext] at hchain
  exact ⟨hdirectory, t, ⟨ht, nodes, hchain, hnodes⟩, by rw [hlists]⟩

/-- The directories at boot, with another name for the file `f`. -/
def renamedFile (name : List.Vector UInt8 64) : State :=
  bootDirectories.setObject 0x1500 ⟨⟨name, 5⟩, 0⟩

theorem edge_renamedFile {name : List.Vector UInt8 64} (h : Edge (renamedFile name) d o) :
    d = 0x1000 ∧ (o = 0x1200 ∨ o = 0x1500) ∨ d = 0x1200 ∧ o = 0x1600 := by
  have hsame : ∀ d, ((renamedFile name).objects d).header.type = (bootDirectories.objects d).header.type ∧
      ((renamedFile name).objects d).headerList = (bootDirectories.objects d).headerList := by
    intro d
    rcases eq_or_ne d 0x1500 with rfl | hne
    · exact ⟨rfl, rfl⟩
    · have hobject : (renamedFile name).objects d = bootDirectories.objects d := Function.update_of_ne hne ..
      rw [hobject]
      exact ⟨rfl, rfl⟩
  exact edge_bootDirectories (edge_of_same (fun d => (hsame d).1) (fun d => (hsame d).2) rfl h)

theorem renamedFile_tree (name : List.Vector UInt8 64) : ObjectTree (renamedFile name) 0x1000 where
  orphan d _ hedge := by
    have := edge_renamedFile hedge
    omega
  parent d d' o _ _ hedge hedge' := by
    have := edge_renamedFile hedge
    have := edge_renamedFile hedge'
    omega

/-- A path that goes on behind a name of 32 bytes finds the file with this name. -/
theorem renamedFile_returns (hnul : 0 ∉ p) (hslash : 47 ∉ p) (hlen : p.length = 32)
    (h64 : p.length ≤ 64) : ReturnsObject (renamedFile (nameField p h64)) 0x1000 (p ++ 47 :: [98]) := by
  have hpad : pad 32 p = p := by
    rw [pad, hlen]
    exact List.append_nil p
  have hcString : cString p = p := by
    rw [← List.append_nil p, cString, List.takeWhile_append_of_pos fun x hx => ?_]
    · rfl
    · exact bne_iff_ne.mpr fun hzero => hnul (hzero ▸ hx)
  have hdot : 32 ≤ [46, (0 : UInt8)].length ∨ 0 ∈ [46, (0 : UInt8)] := by decide
  obtain ⟨v, hv, hiff⟩ := strncmp_spec (.inl hlen.ge) hdot
  have hv0 : v ≠ 0 := by
    intro hzero
    have hsame := hiff.mp hzero
    rw [List.take_of_length_le hlen.le, hcString] at hsame
    have hshort := congrArg List.length hsame
    rw [hlen] at hshort
    exact absurd hshort (by decide)
  -- the directory `a` is looked at first
  have hchain : Chain (renamedFile (nameField p h64)).nextEntry 0x1100 [0x1100] 0x1300 := ⟨rfl, rfl⟩
  have hname : childName (renamedFile (nameField p h64)) 0x1500 = p := by
    have hfield : ((renamedFile (nameField p h64)).objects 0x1500).header.name.toList = pad 64 p := rfl
    rw [childName, hfield, pad, List.take_append_of_le_length hlen.ge, List.take_of_length_le hlen.le, hcString]
  have hitem : ((renamedFile (nameField p h64)).lists 0x1300).item = 0x1500 := rfl
  have hother : childName (renamedFile (nameField p h64)) 0x1200 = childName bootDirectories 0x1200 := rfl
  have hfind : findChild (renamedFile (nameField p h64)) p 2 0x1100 = .ok 0x1300 := by
    refine findChild_of_chain hlen hchain (fun x hx => ?_) (by decide) ?_ ?_ (by decide)
    · obtain rfl := List.mem_singleton.mp hx
      have hfirst : ((renamedFile (nameField p h64)).lists 0x1100).item = 0x1200 := rfl
      rw [hfirst]
      refine ⟨by decide, by decide, fun heq => ?_⟩
      rw [hother, hcString] at heq
      rw [← heq] at hlen
      exact absurd hlen (by decide)
    · rw [hitem]
      decide
    · rw [hcString]
      exact hname
  refine ⟨2, 1, 0x1500, by decide, ?_⟩
  have hstart : startDirectory (renamedFile (nameField p h64)) 0x1000 = .ok 0x1000 := rfl
  have hlist : ((renamedFile (nameField p h64)).objects 0x1000).headerList = 0x1100 := rfl
  have htype : ((renamedFile (nameField p h64)).objects 0x1500).header.type = 5 := rfl
  have hsplit : splitName (p ++ 47 :: ([98] ++ [0])) = _ :=
    splitName_more hslash hnul hlen.le (by decide)
  rw [if_pos (by decide), hpad] at hsplit
  rw [resolveObjectName, hstart, List.append_assoc, List.cons_append, hsplit]
  simp only [bind, Except.bind, hv, if_neg hv0, hlist, hfind, hitem, htype]
  rfl

/-- The dot alone: a child without a name is looked for. -/
theorem resolveObjectName_dot_alone (hstart : root ≠ 0) (hroot : objGetRootObject fuel s = some d) (hd : d ≠ 0) :
    resolveObjectName fuel s (depth + 2) root (some ([46] ++ [0])) =
      (findChild s (pad 32 []) fuel (s.objects d).headerList >>= fun t =>
        if t = 0 then .ok 0 else .ok (s.lists t).item) := by
  have hfirst : startDirectory s root = .ok root := if_neg hstart
  have hsecond : startDirectory s d = .ok d := if_neg hd
  have hdot : strncmp (pad 32 [46]) [46, 0] 32 = .ok 0 := by decide
  have hempty : ∃ v, strncmp (pad 32 []) [46, 0] 32 = .ok v ∧ v ≠ 0 := ⟨_, rfl, by decide⟩
  obtain ⟨v, hv, hv0⟩ := hempty
  have hsplit : splitName ([46] ++ [0]) = .ok (some (pad 32 [46], pad 256 [])) :=
    splitName_last (by decide) (by decide) (by decide)
  have hrest : splitName (pad 256 []) = .ok (some (pad 32 [], pad 256 [])) := by
    rw [pad_eq (by decide)]
    exact splitName_last List.not_mem_nil List.not_mem_nil (Nat.zero_le _)
  have hend (t : ℕ) : ¬ ((pad 256 []).head? ≠ some (0 : UInt8) ∧ (s.objects (s.lists t).item).header.type = 1) :=
    fun hand => hand.1 rfl
  rw [resolveObjectName, hfirst, hsplit]
  simp only [bind, Except.bind, hdot, if_true, hroot, Option.elim]
  rw [resolveObjectName, hsecond, hrest]
  simp only [bind, Except.bind, hv, if_neg hv0, if_neg hd, if_neg (hend _)]

/-- At boot a path goes on behind the dot, and there is no child without a name. -/
theorem dot_alone : ReturnsObject bootDirectories 0x1000 ([46] ++ 47 :: [97]) ∧
    ¬ ReturnsObject bootDirectories 0x1000 [46] := by
  refine ⟨⟨8, 8, 0x1200, by decide, by decide +kernel⟩, ?_⟩
  rintro ⟨fuel, depth, o, ho, hresolve⟩
  have hroot : objGetRootObject fuel bootDirectories = some 0x1000 := rfl
  match depth with
  | 0 => cases hresolve
  | 1 =>
    have hstuck : resolveObjectName fuel bootDirectories 1 0x1000 (some ([46] ++ [0])) = .error .stuck := rfl
    rw [hstuck] at hresolve
    cases hresolve
  | depth + 2 =>
    rw [resolveObjectName_dot_alone (by decide) hroot (by decide)] at hresolve
    obtain ⟨t, hfind, hresolve⟩ := bind_eq_ok.mp hresolve
    by_cases ht : t = 0
    · rw [if_pos ht] at hresolve
      exact ho (Except.ok.inj hresolve).symm
    · obtain ⟨-, hlast⟩ := findChild_spec (length_pad (by decide)) hfind
      have hnode : ListNode bootDirectories 0x1000 t := findChild_listNode (length_pad (by decide)) hfind ht
      have hname := (hlast ht).2
      -- the two children have names
      rcases edge_bootDirectories ⟨rfl, t, hnode, rfl⟩ with ⟨-, hitem | hitem⟩ | ⟨hd, -⟩
      · rw [hitem] at hname
        exact absurd hname (by decide)
      · rw [hitem] at hname
        exact absurd hname (by decide)
      · exact absurd hd (by decide)

/-! ## Prefixes -/

/-- **Prefixes**: a component is found alone wherever a path goes on behind it, in every tree, exactly if it
has not 32 bytes and is not the dot. -/
theorem prefixClosed_iff (hne : p ≠ []) (hnul : 0 ∉ p) (hslash : 47 ∉ p) :
    PrefixClosed p ↔ p.length ≠ 32 ∧ p ≠ [46] := by
  constructor
  · intro h
    refine ⟨fun hlen => ?_, ?_⟩
    · have h64 : p.length ≤ 64 := by omega
      have hreturns := h _ 0x1000 [98] (renamedFile_tree (nameField p h64)) (by decide) rfl (by decide) (by decide)
        (by decide) (renamedFile_returns hnul hslash hlen h64)
      exact not_returnsObject_long hnul hslash hlen.ge hreturns
    · rintro rfl
      exact dot_alone.2 (h bootDirectories 0x1000 [97] bootDirectories_tree (by decide) rfl (by decide) (by decide)
        (by decide) dot_alone.1)
  · rintro ⟨hlen, hdot⟩ s root q - - - - hq - hreturns
    rcases Nat.lt_or_ge 32 p.length with hlong | hshort
    · exact absurd hreturns (not_returnsObject_longer hnul hslash hlong)
    · have hp : IsComponent p := ⟨hne, by omega, hnul, hslash, hdot⟩
      obtain ⟨fuel, depth, o, ho, hresolve⟩ := hreturns
      obtain ⟨o', ho', hresolve'⟩ := resolveObjectName_first hp hq ho hresolve
      exact ⟨fuel, depth, o', ho', hresolve'⟩

/-- `"a"`. -/
theorem prefixClosed_boot : PrefixClosed [97] :=
  (prefixClosed_iff (by decide) (by decide) (by decide)).mpr ⟨by decide, by decide⟩

/-- A file with a name of 32 bytes is found with a slash behind its name only. -/
theorem long_name_needs_slash : ∃ s : State, ObjectTree s 0x1000 ∧
    ReturnsObject s 0x1000 (List.replicate 32 97 ++ 47 :: [98]) ∧
    ¬ ReturnsObject s 0x1000 (List.replicate 32 97) :=
  ⟨_, renamedFile_tree (nameField (List.replicate 32 97) (by decide)),
    renamedFile_returns (by decide) (by decide) (by decide) (by decide),
    not_returnsObject_long (by decide) (by decide) (by decide)⟩

end Cutesugar.Kernel
