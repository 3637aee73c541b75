/-
A reference resolved against a base is the target of RFC 3986 section 5.2, and is read
from its own text.
-/
import Wado.Uri.DotSegments
import Wado.Uri.References

namespace Wado.Uri

open List Option

/-- Section 5.2.3: a path in place of the last segment of the base's. -/
inductive Merges (base : Uri) (path : List UInt8) : List UInt8 → Prop where
  | root (hauthority : base.authority ≠ none) (hempty : base.path = []) :
      Merges base path (slash :: path)
  | after {dir last : List UInt8} (hpath : base.path = dir ++ slash :: last)
      (hlast : slash ∉ last) :
      Merges base path (dir ++ slash :: path)
  | whole (hbase : base.authority = none ∨ base.path ≠ []) (hslash : slash ∉ base.path) :
      Merges base path path

/-- Section 5.2.2: the target of a reference. -/
inductive Target (base r : Uri) : Uri → Prop where
  | scheme {path : List UInt8} (hscheme : r.scheme ≠ none) (hpath : RemovesDots r.path [] path) :
      Target base r ⟨r.scheme, r.authority, path, r.query, r.fragment⟩
  | authority {path : List UInt8} (hscheme : r.scheme = none) (hauthority : r.authority ≠ none)
      (hpath : RemovesDots r.path [] path) :
      Target base r ⟨base.scheme, r.authority, path, r.query, r.fragment⟩
  | same (hscheme : r.scheme = none) (hauthority : r.authority = none) (hempty : r.path = []) :
      Target base r ⟨base.scheme, base.authority, base.path, r.query.or base.query, r.fragment⟩
  | rooted {path : List UInt8} (hscheme : r.scheme = none) (hauthority : r.authority = none)
      (hslash : [slash] <+: r.path) (hpath : RemovesDots r.path [] path) :
      Target base r ⟨base.scheme, base.authority, path, r.query, r.fragment⟩
  | merged {full path : List UInt8} (hscheme : r.scheme = none) (hauthority : r.authority = none)
      (hempty : r.path ≠ []) (hslash : ¬ [slash] <+: r.path) (hmerge : Merges base r.path full)
      (hpath : RemovesDots full [] path) :
      Target base r ⟨base.scheme, base.authority, path, r.query, r.fragment⟩

/-- The target with its path kept from being read as an authority. -/
def guarded (t : Uri) : Uri :=
  if t.authority = none ∧ [slash, slash] <+: t.path then { t with path := [slash, dot] ++ t.path }
  else t

theorem merges_merge (base : Uri) (path : List UInt8) : Merges base path (base.merge path) := by
  unfold merge
  by_cases hroot : base.authority.isSome ∧ base.path = []
  · rw [if_pos hroot]
    exact .root (isSome_iff_ne_none.mp hroot.1) hroot.2
  · rw [if_neg hroot]
    by_cases hmem : slash ∈ base.path
    · obtain ⟨dir, last, hpath, hlast⟩ := exists_last_of_mem hmem
      have hfind : rfind slash base.path = some dir.length := by
        rw [hpath]
        exact rfind_append hlast
      have htake : base.path.take (dir.length + 1) = dir ++ [slash] := by
        rw [hpath, take_length_add_append]
        rfl
      rw [hfind]
      dsimp only
      rw [htake, append_assoc]
      exact .after hpath hlast
    · have hfind : rfind slash base.path = none := by rw [rfind, if_neg hmem]
      rw [hfind]
      refine .whole ?_ hmem
      by_cases hauthority : base.authority = none
      · exact .inl hauthority
      · exact .inr fun hempty => hroot ⟨isSome_iff_ne_none.mpr hauthority, hempty⟩

/-- Resolving computes the target, but for the guard of its path. -/
theorem resolve_target (base r : Uri) : ∃ t, Target base r t ∧ base.resolve r = guarded t := by
  obtain ⟨scheme, authority, path, query, fragment⟩ := r
  cases scheme with
  | some scheme =>
    refine ⟨_, .scheme (by simp) (removesDots_removeDotSegments path), ?_⟩
    simp [resolve, guarded]
  | none =>
    cases authority with
    | some authority =>
      refine ⟨_, .authority rfl (by simp) (removesDots_removeDotSegments path), ?_⟩
      simp [resolve, guarded]
    | none =>
      by_cases hempty : path = []
      · refine ⟨_, .same rfl rfl hempty, ?_⟩
        cases query <;> simp [resolve, guarded, hempty]
      · by_cases hslash : [slash] <+: path
        · refine ⟨_, .rooted rfl rfl hslash (removesDots_removeDotSegments path), ?_⟩
          simp [resolve, guarded, hempty, hslash]
        · refine ⟨_, .merged rfl rfl hempty hslash (merges_merge base path)
            (removesDots_removeDotSegments _), ?_⟩
          simp [resolve, guarded, hempty, hslash]

/-- Wherever the target's path has had its dot segments removed, it has none. -/
theorem Target.noDots {base r t : Uri} (h : Target base r t)
    (hr : r.scheme ≠ none ∨ r.authority ≠ none ∨ r.path ≠ []) : NoDots t.path := by
  cases h with
  | scheme _ hpath => exact hpath.noDots noDots_nil (.inl rfl)
  | authority _ _ hpath => exact hpath.noDots noDots_nil (.inl rfl)
  | same hscheme hauthority hempty =>
    rcases hr with hr | hr | hr
    · exact absurd hscheme hr
    · exact absurd hauthority hr
    · exact absurd hempty hr
  | rooted _ _ _ hpath => exact hpath.noDots noDots_nil (.inl rfl)
  | merged _ _ _ _ _ hpath => exact hpath.noDots noDots_nil (.inl rfl)

section Closed

variable {base r t : Uri}

variable {path : List UInt8}

/-- A path that stands after an authority is empty or starts with a slash. -/
theorem head?_path (h : path = [] ∨ [slash] <+: path) :
    ∀ c ∈ path.head?, c = slash := by
  rcases h with rfl | ⟨rest, rfl⟩
  · simp
  · intro c hc
    cases hc
    rfl

theorem path_of_head? (h : ∀ c ∈ path.head?, c = slash) :
    path = [] ∨ [slash] <+: path := by
  cases path with
  | nil => exact .inl rfl
  | cons c path =>
    right
    rw [h c rfl]
    exact ⟨path, rfl⟩

theorem slash_pathExtra : isUnreserved slash ∨ isSubDelim slash ∨ slash ∈ pathExtra := by decide

variable {path full : List UInt8}

theorem Merges.chars (h : Merges base path full)
    (hbase : Chars pathExtra base.path) (hpath : Chars pathExtra path) : Chars pathExtra full := by
  have hslash : Chars pathExtra (slash :: path) := .char slash_pathExtra (by decide) hpath
  cases h with
  | root _ _ => exact hslash
  | after hsplit hlast =>
    rw [hsplit] at hbase
    exact (hbase.split (by simp)).1.append hslash
  | whole _ _ => exact hpath

theorem Merges.head? (h : Merges base path full)
    (hauthority : base.authority ≠ none) (hbase : base.path = [] ∨ [slash] <+: base.path) :
    ∀ c ∈ full.head?, c = slash := by
  cases h with
  | root _ _ => simp
  | @after dir last hsplit hlast =>
    cases dir with
    | nil => simp
    | cons d dir =>
      intro c hc
      apply head?_path hbase
      rw [hsplit]
      exact hc
  | whole hnone hslash =>
    have hne := hnone.resolve_left hauthority
    obtain ⟨rest, hrest⟩ := hbase.resolve_left hne
    exact absurd (by rw [← hrest]; exact mem_cons_self) hslash

/-- The components of a target are those of references, the path of one without an
authority aside. -/
structure Composed (t : Uri) : Prop where
  scheme : t.scheme ≠ none ∧ ∀ s ∈ t.scheme, checkScheme s = .ok () ∧ toAsciiLowercase s = s
  authority : ∀ a ∈ t.authority, checkAuthority 0 a = .ok () ∧
    (∀ c ∈ a, c ∉ [slash, question, hash]) ∧ (t.path = [] ∨ [slash] <+: t.path)
  path : Chars pathExtra t.path
  query : ∀ q ∈ t.query, Chars queryExtra q
  fragment : ∀ f ∈ t.fragment, Chars queryExtra f

theorem Target.composed (h : Target base r t) (hbase : WellFormed base)
    (hscheme : base.scheme ≠ none) (hr : WellFormed r) : Composed t := by
  have hchars {input path : List UInt8} (hpath : RemovesDots input [] path)
      (hinput : Chars pathExtra input) : Chars pathExtra path := hpath.chars hinput .nil
  have hhead {input path : List UInt8} (hpath : RemovesDots input [] path)
      (hinput : ∀ c ∈ input.head?, c = slash) : path = [] ∨ [slash] <+: path :=
    path_of_head? (hpath.head? hinput (by simp))
  cases h with
  | scheme hsome hpath =>
    refine ⟨⟨hsome, hr.scheme⟩, ?_, hchars hpath hr.path, hr.query, hr.fragment⟩
    intro a ha
    obtain ⟨hcheck, hstops, hstart⟩ := hr.authority a ha
    exact ⟨hcheck, hstops, hhead hpath (head?_path hstart)⟩
  | authority _ _ hpath =>
    refine ⟨⟨hscheme, hbase.scheme⟩, ?_, hchars hpath hr.path, hr.query, hr.fragment⟩
    intro a ha
    obtain ⟨hcheck, hstops, hstart⟩ := hr.authority a ha
    exact ⟨hcheck, hstops, hhead hpath (head?_path hstart)⟩
  | same _ _ _ =>
    refine ⟨⟨hscheme, hbase.scheme⟩, hbase.authority, hbase.path, ?_, hr.fragment⟩
    intro q hq
    rcases or_eq_some_iff.mp hq with hq | ⟨_, hq⟩
    · exact hr.query q hq
    · exact hbase.query q hq
  | rooted _ _ hslash hpath =>
    refine ⟨⟨hscheme, hbase.scheme⟩, ?_, hchars hpath hr.path, hr.query, hr.fragment⟩
    intro a ha
    obtain ⟨hcheck, hstops, _⟩ := hbase.authority a ha
    exact ⟨hcheck, hstops, hhead hpath (head?_path (.inr hslash))⟩
  | merged _ _ _ _ hmerge hpath =>
    refine ⟨⟨hscheme, hbase.scheme⟩, ?_, hchars hpath (hmerge.chars hbase.path hr.path), hr.query,
      hr.fragment⟩
    intro a ha
    obtain ⟨hcheck, hstops, hstart⟩ := hbase.authority a ha
    exact ⟨hcheck, hstops, hhead hpath (hmerge.head? (ne_none_iff_exists'.mpr ⟨a, ha⟩)
      hstart)⟩

/-- The guard keeps the path of a target from being read as an authority. -/
theorem Composed.guarded (h : Composed t) : WellFormed (guarded t) := by
  unfold Uri.guarded
  by_cases hguard : t.authority = none ∧ [slash, slash] <+: t.path
  · rw [if_pos hguard]
    refine ⟨h.scheme.2, fun hnone => absurd hnone h.scheme.1, ?_, ?_, ?_, h.query, h.fragment⟩
    · intro a ha
      rw [show t.authority = none from hguard.1] at ha
      cases ha
    · intro _ hslashes
      rw [cons_append, cons_append, cons_prefix_cons] at hslashes
      exact not_prefix_of_head (by decide) hslashes.2
    · exact .char slash_pathExtra (by decide) (.char (by decide) (by decide) h.path)
  · rw [if_neg hguard]
    exact ⟨h.scheme.2, fun hnone => absurd hnone h.scheme.1, h.authority,
      fun hnone hslashes => hguard ⟨hnone, hslashes⟩, h.path, h.query, h.fragment⟩

end Closed

/-- References are closed under writing and under resolving: what is read is read from its
own text, and so is what it is resolved to, which is the target of the standard but for the
guard of its path.  Removing dot segments leaves none. -/
theorem references_closed :
    (∀ (text : List UInt8) (u : Uri), fromStr text = .ok u → fromStr (toStr u) = .ok u) ∧
    (∀ (baseText refText : List UInt8) (base r : Uri), fromStr baseText = .ok base →
      base.scheme ≠ none → fromStr refText = .ok r →
        fromStr (toStr (base.resolve r)) = .ok (base.resolve r) ∧
          ∃ t, Target base r t ∧ base.resolve r = guarded t ∧
            (r.scheme ≠ none ∨ r.authority ≠ none ∨ r.path ≠ [] → NoDots t.path)) ∧
    ∀ path res : List UInt8, RemovesDots path [] res ↔ removeDotSegments path = res ∧
      NoDots res := by
  refine ⟨fun text u => fromStr_toStr, ?_, ?_⟩
  · intro baseText refText base r hbase hscheme hr
    obtain ⟨t, htarget, hresolve⟩ := resolve_target base r
    have hcomposed :=
      htarget.composed (wellFormed_of_fromStr hbase) hscheme (wellFormed_of_fromStr hr)
    refine ⟨?_, t, htarget, hresolve, htarget.noDots⟩
    rw [hresolve]
    exact hcomposed.guarded.fromStr
  · intro path res
    constructor
    · intro h
      exact ⟨removesDots_iff.mp h, h.noDots noDots_nil (.inl rfl)⟩
    · rintro ⟨h, _⟩
      exact removesDots_iff.mpr h

/-- The texts `s:a/b` and `..//c?q`: the target's path starts with two slashes. -/
theorem references_closed_guarded :
    fromStr (toStr ((⟨some [0x73], none, [0x61, slash, 0x62], none, none⟩ : Uri).resolve
      ⟨none, none, [dot, dot, slash, slash, 0x63], some [0x71], none⟩)) =
    .ok ⟨some [0x73], none, [slash, dot, slash, slash, 0x63], some [0x71], none⟩ := by
  have hbase : fromStr [0x73, colon, 0x61, slash, 0x62] =
      .ok ⟨some [0x73], none, [0x61, slash, 0x62], none, none⟩ := by rfl
  have hr : fromStr [dot, dot, slash, slash, 0x63, question, 0x71] =
      .ok ⟨none, none, [dot, dot, slash, slash, 0x63], some [0x71], none⟩ := by rfl
  exact (references_closed.2.1 _ _ _ _ hbase (by simp) hr).1

end Wado.Uri
