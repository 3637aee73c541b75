/-
What a reference is read as is written as a text that is read as the same reference.
-/
import Wado.Uri.Components

namespace Wado.Uri

open ExceptSteps List

section Scheme

def lowerByte (c : UInt8) : UInt8 := if isUpper c then c + 32 else c

variable (c : UInt8)

theorem toNat_lowerByte :
    (lowerByte c).toNat = if 0x41 ≤ c.toNat ∧ c.toNat ≤ 0x5a then c.toNat + 32 else c.toNat := by
  have hupper : isUpper c = true ↔ 0x41 ≤ c.toNat ∧ c.toNat ≤ 0x5a := by
    simp [isUpper, UInt8.le_iff_toNat_le]
  unfold lowerByte
  by_cases h : isUpper c = true
  · have hc := hupper.mp h
    rw [if_pos h, if_pos hc, UInt8.toNat_add]
    show (c.toNat + 32) % 256 = c.toNat + 32
    omega
  · rw [if_neg h, if_neg fun hc => h (hupper.mpr hc)]

theorem lowerByte_lowerByte : lowerByte (lowerByte c) = lowerByte c := by
  apply UInt8.toNat_inj.mp
  rw [toNat_lowerByte, toNat_lowerByte]
  split_ifs <;> omega

theorem toAsciiLowercase_idem (text : List UInt8) :
    toAsciiLowercase (toAsciiLowercase text) = toAsciiLowercase text := by
  rw [toAsciiLowercase, toAsciiLowercase, map_map]
  exact map_congr_left fun c _ => lowerByte_lowerByte c

theorem isAsciiAlphabetic_iff : isAsciiAlphabetic c = true ↔
    0x41 ≤ c.toNat ∧ c.toNat ≤ 0x5a ∨ 0x61 ≤ c.toNat ∧ c.toNat ≤ 0x7a := by
  simp [isAsciiAlphabetic, isUpper, UInt8.le_iff_toNat_le]

/-- A letter stays one, and the other bytes of a scheme stay as they are. -/
theorem lowerByte_scheme :
    (isAsciiAlphabetic c = true → isAsciiAlphabetic (lowerByte c) = true) ∧
      (isAsciiAlphabetic c = false → lowerByte c = c) := by
  constructor
  · rw [isAsciiAlphabetic_iff, isAsciiAlphabetic_iff, toNat_lowerByte]
    intro h
    split_ifs with hupper <;> omega
  · intro h
    have hno : ¬ isAsciiAlphabetic c = true := by rw [h]; exact Bool.false_ne_true
    rw [isAsciiAlphabetic_iff] at hno
    apply UInt8.toNat_inj.mp
    rw [toNat_lowerByte, if_neg fun hupper => hno (.inl hupper)]

variable {part : List UInt8}

variable {start i : Nat}

theorem checkSchemeFrom_lower (h : checkSchemeFrom start part i = .ok ()) :
    checkSchemeFrom start (toAsciiLowercase part) i = .ok () := by
  induction part generalizing i with
  | nil => rfl
  | cons c part ih =>
    rw [checkSchemeFrom] at h
    split_ifs at h with hc
    · show checkSchemeFrom start (lowerByte c :: toAsciiLowercase part) i = .ok ()
      rw [checkSchemeFrom, if_pos]
      · exact ih h
      · by_cases halpha : isAsciiAlphabetic c = true
        · exact .inl ((lowerByte_scheme c).1 halpha)
        · rw [(lowerByte_scheme c).2 (Bool.eq_false_iff.mpr halpha)]
          exact hc
    · cases h

theorem checkScheme_lower (h : checkScheme part = .ok ()) :
    checkScheme (toAsciiLowercase part) = .ok () := by
  unfold checkScheme at h ⊢
  split_ifs at h with hempty
  · cases h
  · rw [if_neg]
    · exact checkSchemeFrom_lower h
    · rw [toAsciiLowercase, map_eq_nil_iff]
      exact hempty

theorem scheme_not_mem (h : checkSchemeFrom start part i = .ok ()) :
    ∀ c ∈ part, c ∉ schemeStops := by
  induction part generalizing i with
  | nil => simp
  | cons c part ih =>
    rw [checkSchemeFrom] at h
    split_ifs at h with hc
    · refine forall_mem_cons.mpr ⟨?_, ih h⟩
      intro hmem
      simp only [schemeStops, mem_cons, not_mem_nil, or_false] at hmem
      revert hc
      rcases hmem with rfl | rfl | rfl | rfl
      all_goals
        intro hc
        rcases hc with hc | ⟨_, hc⟩
        · exact absurd hc (by decide)
        · exact absurd hc (by decide)
    · cases h

theorem checkScheme_not_mem (h : checkScheme part = .ok ()) :
    ∀ c ∈ part, c ∉ schemeStops := by
  unfold checkScheme at h
  split_ifs at h with hempty
  · cases h
  · exact scheme_not_mem h

end Scheme

section Authority

theorem agree_check (extra : List UInt8) (component : String) (i j : Nat) (part : List UInt8) :
    Agree (check extra component i part) (check extra component j part) := by
  intro _
  rw [check_eq_ok, check_eq_ok]

theorem agree_checkPort (i j : Nat) (part : List UInt8) :
    Agree (checkPort i part) (checkPort j part) := by
  induction part generalizing i j with
  | nil => exact .refl _
  | cons c part ih =>
    rw [checkPort, checkPort]
    split_ifs
    · exact ih _ _
    · exact agree_error _ _

variable (start start' : Nat)

theorem agree_checkUserinfo (part : List UInt8) :
    Agree (checkUserinfo start part) (checkUserinfo start' part) := by
  unfold checkUserinfo
  dsimp only
  split_ifs
  · exact (agree_check _ _ _ _ _).bind fun _ => .refl _
  · exact .refl _

theorem agree_checkHost (part : List UInt8) :
    Agree (checkHost start part) (checkHost start' part) := by
  unfold checkHost
  dsimp only
  split_ifs
  · exact agree_error _ _
  · exact agree_error _ _
  · exact .refl _
  · exact agree_error _ _
  · exact (agree_check _ _ _ _ _).bind fun _ => .refl _

/-- Where an authority stands in a text decides nothing but the offsets of its errors. -/
theorem agree_checkAuthority (part : List UInt8) :
    Agree (checkAuthority start part) (checkAuthority start' part) := by
  apply (agree_checkUserinfo _ _ _).bind
  intro host
  apply (agree_checkHost _ _ _).bind
  intro hostEnd
  exact agree_checkPort _ _ _

end Authority

section Readers

/-- A component with the byte before it. -/
def marked (mark : UInt8) : Option (List UInt8) → List UInt8
  | some part => mark :: part
  | none => []

variable {pos : Nat}

theorem getElem?_of_drop {text rest : List UInt8} (h : text.drop pos = rest) :
    text[pos]? = rest.head? := by
  rw [← h, List.head?_drop]

theorem drop_of_drop {text pre rest : List UInt8} (h : text.drop pos = pre ++ rest) :
    text.drop (pos + pre.length) = rest := by
  rw [← drop_drop, h, drop_left]

variable {mark : UInt8} {stops text : List UInt8} {component : String} {pos : Nat}

variable {part : Option (List UInt8)}

theorem readMarked_sound {pos' : Nat}
    (h : readMarked mark stops component text pos = .ok (part, pos')) :
    ∃ next, text.drop pos = marked mark part ++ next ∧ text.drop pos' = next ∧
      (∀ q ∈ part, Chars queryExtra q ∧ Cut stops (q ++ next) q next) ∧
      (part = none → next.head? ≠ some mark) := by
  unfold readMarked at h
  split_ifs at h with hmark
  · dsimp only at h
    obtain ⟨_, hcheck, h⟩ := bind_eq_ok.mp h
    have hcut := cut_findAny stops (text.drop (pos + 1))
    generalize (text.drop (pos + 1)).take (findAny stops (text.drop (pos + 1))) = q at h hcheck hcut
    generalize (text.drop (pos + 1)).drop (findAny stops (text.drop (pos + 1))) = next at hcut
    cases h
    have hdrop : text.drop pos = marked mark (some q) ++ next := by
      obtain ⟨hpos, hget⟩ := List.getElem?_eq_some_iff.mp hmark
      rw [drop_eq_getElem_cons hpos, hget, hcut.eq]
      rfl
    refine ⟨next, hdrop, ?_, ?_, fun hnone => nomatch hnone⟩
    · have hnext := drop_of_drop hdrop
      rw [marked, length_cons] at hnext
      rw [← hnext]
      congr 1
      omega
    · intro q' hq'
      cases hq'
      exact ⟨check_eq_ok.mp hcheck, hcut.eq ▸ hcut⟩
  · cases h
    exact ⟨text.drop pos, rfl, rfl, by simp, fun _ => getElem?_of_drop rfl ▸ hmark⟩

theorem readMarked_complete {part : Option (List UInt8)} {next : List UInt8}
    (hdrop : text.drop pos = marked mark part ++ next)
    (hpart : ∀ q ∈ part, Chars queryExtra q ∧ Cut stops (q ++ next) q next)
    (hnone : part = none → next.head? ≠ some mark) :
    readMarked mark stops component text pos = .ok (part, pos + (marked mark part).length) := by
  have hget := getElem?_of_drop hdrop
  unfold readMarked
  cases part with
  | none =>
    rw [marked, nil_append] at hget
    rw [if_neg (by rw [hget]; exact hnone rfl)]
    rfl
  | some q =>
    obtain ⟨hchars, hcut⟩ := hpart q rfl
    have hdrop' : text.drop (pos + 1) = q ++ next := by
      rw [← drop_drop, hdrop]
      rfl
    rw [if_pos (by rw [hget]; rfl)]
    dsimp only
    rw [hdrop', hcut.take, bind_of_eq_ok (check_eq_ok.mpr hchars), marked, length_cons,
      Nat.add_assoc, Nat.add_comm 1]
    rfl

/-- An authority with the slashes before it. -/
def slashed : Option (List UInt8) → List UInt8
  | some part => slash :: slash :: part
  | none => []

theorem readAuthority_sound {pos' : Nat} (h : readAuthority text pos = .ok (part, pos')) :
    ∃ next, text.drop pos = slashed part ++ next ∧ text.drop pos' = next ∧
      (∀ a ∈ part, checkAuthority 0 a = .ok () ∧ Cut [slash, question, hash] (a ++ next) a next) ∧
      (part = none → ¬ [slash, slash] <+: next) := by
  unfold readAuthority at h
  dsimp only at h
  split_ifs at h with hslashes
  · obtain ⟨_, hcheck, h⟩ := bind_eq_ok.mp h
    have hcut := cut_findAny [slash, question, hash] (text.drop (pos + 2))
    generalize (text.drop (pos + 2)).take
      (findAny [slash, question, hash] (text.drop (pos + 2))) = a at h hcheck hcut
    generalize (text.drop (pos + 2)).drop
      (findAny [slash, question, hash] (text.drop (pos + 2))) = next at hcut
    cases h
    have hdrop : text.drop pos = slashed (some a) ++ next := by
      obtain ⟨rest, hrest⟩ := hslashes
      have hnext : text.drop (pos + 2) = rest := by
        rw [← drop_drop, ← hrest]
        rfl
      rw [← hrest, ← hnext, hcut.eq]
      rfl
    refine ⟨next, hdrop, ?_, ?_, fun hnone => nomatch hnone⟩
    · have hnext := drop_of_drop hdrop
      rw [slashed, length_cons, length_cons] at hnext
      rw [← hnext]
      congr 1
      omega
    · intro a' ha'
      cases ha'
      exact ⟨(agree_checkAuthority _ _ _ _).mp hcheck, hcut.eq ▸ hcut⟩
  · cases h
    exact ⟨text.drop pos, rfl, rfl, by simp, fun _ => hslashes⟩

variable {next : List UInt8}

theorem readAuthority_complete (hdrop : text.drop pos = slashed part ++ next)
    (hpart : ∀ a ∈ part, checkAuthority 0 a = .ok () ∧
      Cut [slash, question, hash] (a ++ next) a next)
    (hnone : part = none → ¬ [slash, slash] <+: next) :
    readAuthority text pos = .ok (part, pos + (slashed part).length) := by
  unfold readAuthority
  dsimp only
  cases part with
  | none =>
    rw [hdrop, slashed, nil_append, if_neg (hnone rfl)]
    rfl
  | some a =>
    obtain ⟨hcheck, hcut⟩ := hpart a rfl
    have hdrop' : text.drop (pos + 2) = a ++ next := by
      rw [← drop_drop, hdrop]
      rfl
    have hslashes : [slash, slash] <+: text.drop pos := by
      rw [hdrop]
      exact prefix_append [slash, slash] (a ++ next)
    rw [if_pos hslashes, hdrop', hcut.take,
      bind_of_eq_ok ((agree_checkAuthority _ _ _ _).mp hcheck), slashed, length_cons,
      length_cons, Nat.add_assoc, Nat.add_comm 2]
    rfl

/-- A scheme with the colon after it. -/
def schemed : Option (List UInt8) → List UInt8
  | some part => part ++ [colon]
  | none => []

variable {scheme : Option (List UInt8)}

theorem readScheme_sound (h : readScheme text = .ok (scheme, pos)) :
    ∃ raw next, text = schemed raw ++ next ∧ text.drop pos = next ∧
      scheme = raw.map toAsciiLowercase ∧ (∀ s ∈ raw, checkScheme s = .ok ()) ∧
      (raw = none → text[findAny schemeStops text]? ≠ some colon) := by
  unfold readScheme at h
  dsimp only at h
  split_ifs at h with hcolon
  · obtain ⟨_, hcheck, h⟩ := bind_eq_ok.mp h
    obtain ⟨hpos, hget⟩ := List.getElem?_eq_some_iff.mp hcolon
    cases h
    refine ⟨some (text.take (findAny schemeStops text)), _, ?_, rfl, rfl, ?_, fun hnone =>
      nomatch hnone⟩
    · have hsplit := take_append_drop (findAny schemeStops text) text
      rw [drop_eq_getElem_cons hpos, hget] at hsplit
      rw [schemed, append_assoc]
      exact hsplit.symm
    · intro s hs
      cases hs
      exact hcheck
  · cases h
    exact ⟨none, text, rfl, rfl, rfl, by simp, fun _ => hcolon⟩

theorem readScheme_complete (htext : text = schemed scheme ++ next)
    (hscheme : ∀ s ∈ scheme, checkScheme s = .ok () ∧ toAsciiLowercase s = s)
    (hnone : scheme = none → text[findAny schemeStops text]? ≠ some colon) :
    readScheme text = .ok (scheme, (schemed scheme).length) := by
  unfold readScheme
  dsimp only
  cases scheme with
  | none =>
    rw [if_neg (hnone rfl)]
    rfl
  | some s =>
    obtain ⟨hcheck, hlower⟩ := hscheme s rfl
    rw [schemed, append_assoc] at htext
    have hcut : Cut schemeStops text s ([colon] ++ next) := by
      refine ⟨htext, checkScheme_not_mem hcheck, ?_⟩
      intro c hc
      cases hc
      decide
    have hget : text[findAny schemeStops text]? = some colon :=
      getElem?_of_drop hcut.drop
    rw [if_pos hget, hcut.take,
      bind_of_eq_ok hcheck, hlower, hcut.findAny, schemed, length_append]
    rfl

end Readers

section Whole

theorem toStr_eq (u : Uri) : toStr u = schemed u.scheme ++ (slashed u.authority ++
      (u.path ++ (marked question u.query ++ marked hash u.fragment))) := by
  obtain ⟨scheme, authority, path, query, fragment⟩ := u
  cases scheme <;> cases authority <;> cases query <;> cases fragment <;>
    simp [toStr, schemed, slashed, marked]

/-- The references that are read back from their own text. -/
structure WellFormed (u : Uri) : Prop where
  scheme : ∀ s ∈ u.scheme, checkScheme s = .ok () ∧ toAsciiLowercase s = s
  noScheme : u.scheme = none → (toStr u)[findAny schemeStops (toStr u)]? ≠ some colon
  authority : ∀ a ∈ u.authority, checkAuthority 0 a = .ok () ∧
    (∀ c ∈ a, c ∉ [slash, question, hash]) ∧ (u.path = [] ∨ [slash] <+: u.path)
  noAuthority : u.authority = none → ¬ [slash, slash] <+: u.path
  path : Chars pathExtra u.path
  query : ∀ q ∈ u.query, Chars queryExtra q
  fragment : ∀ f ∈ u.fragment, Chars queryExtra f

theorem head?_marked (q f : Option (List UInt8)) :
    ∀ c ∈ (marked question q ++ marked hash f).head?, c ∈ [question, hash] := by
  cases q <;> cases f <;> simp [marked]

theorem path_not_mem {extra part : List UInt8} (h : Chars extra part) {c : UInt8}
    (hc : c = question ∨ c = hash) (hextra : c ∉ extra) : c ∉ part := by
  rcases hc with rfl | rfl
  · exact h.not_mem (by simp only [hextra]; decide) (by decide) (by decide)
  · exact h.not_mem (by simp only [hextra]; decide) (by decide) (by decide)

variable {u : Uri}

theorem cut_path (h : Chars pathExtra u.path) :
    Cut [question, hash] (u.path ++ (marked question u.query ++ marked hash u.fragment)) u.path
      (marked question u.query ++ marked hash u.fragment) := by
  refine ⟨rfl, ?_, head?_marked _ _⟩
  intro c hc hmem
  have hmark : c = question ∨ c = hash := by simpa using hmem
  rcases hmark with rfl | rfl
  · exact path_not_mem h (.inl rfl) (by decide) hc
  · exact path_not_mem h (.inr rfl) (by decide) hc

theorem cut_marked {q : List UInt8} (h : Chars queryExtra q) (f : Option (List UInt8)) :
    Cut [hash] (q ++ marked hash f) q (marked hash f) := by
  refine ⟨rfl, ?_, ?_⟩
  · intro c hc hmem
    rw [mem_singleton] at hmem
    exact path_not_mem h (.inr hmem) (by rw [hmem]; decide) hc
  · cases f <;> simp [marked]

theorem cut_authority (h : WellFormed u) {a : List UInt8} (ha : a ∈ u.authority) :
    Cut [slash, question, hash]
      (a ++ (u.path ++ (marked question u.query ++ marked hash u.fragment))) a
      (u.path ++ (marked question u.query ++ marked hash u.fragment)) := by
  obtain ⟨_, hstops, hpath⟩ := h.authority a ha
  refine ⟨rfl, hstops, ?_⟩
  intro c hc
  rcases hpath with hpath | ⟨rest, hrest⟩
  · rw [hpath, nil_append] at hc
    exact mem_cons_of_mem _ (head?_marked _ _ c hc)
  · rw [← hrest] at hc
    cases hc
    exact mem_cons_self

/-- Only an authority is read after two slashes. -/
theorem not_slashes (h : ¬ [slash, slash] <+: u.path) :
    ¬ [slash, slash] <+: u.path ++ (marked question u.query ++ marked hash u.fragment) := by
  have htail := head?_marked u.query u.fragment
  generalize marked question u.query ++ marked hash u.fragment = tail at htail
  have hslash : ∀ rest, tail ≠ slash :: rest := by
    intro rest heq
    rw [heq] at htail
    exact absurd (htail slash rfl) (by decide)
  rintro ⟨rest, hrest⟩
  match hpath : u.path with
  | [] =>
    rw [hpath] at hrest
    exact hslash _ hrest.symm
  | [_] =>
    rw [hpath] at hrest
    exact hslash _ (List.cons.inj hrest).2.symm
  | _ :: _ :: path =>
    rw [hpath] at hrest
    obtain ⟨hfirst, hrest⟩ := List.cons.inj hrest
    obtain ⟨hsecond, _⟩ := List.cons.inj hrest
    apply h
    rw [hpath, ← hfirst, ← hsecond]
    exact ⟨path, rfl⟩

/-- A well-formed reference is read from its text. -/
theorem WellFormed.fromStr (h : WellFormed u) : Uri.fromStr (toStr u) = .ok u := by
  have htext := toStr_eq u
  have hscheme := readScheme_complete htext h.scheme h.noScheme
  have hdrop : (toStr u).drop (schemed u.scheme).length = slashed u.authority ++
      (u.path ++ (marked question u.query ++ marked hash u.fragment)) := by
    rw [htext, drop_left]
  have hauthority := readAuthority_complete hdrop
    (fun a ha => ⟨(h.authority a ha).1, cut_authority h ha⟩)
    (fun hnone => not_slashes (h.noAuthority hnone))
  have hpath := drop_of_drop hdrop
  have hquery := drop_of_drop hpath
  have hfragment := drop_of_drop hquery
  rw [← append_nil (marked hash u.fragment)] at hfragment
  have hreadQuery := @readMarked_complete question [hash] _ "query" _ _ _ hquery
    (fun q hq => ⟨h.query q hq, cut_marked (h.query q hq) _⟩)
    (fun _ => by cases u.fragment <;> simp [marked, question, hash])
  have hreadFragment := @readMarked_complete hash [] _ "fragment" _ _ _ hfragment
    (fun f hf => ⟨h.fragment f hf, ⟨rfl, by simp, by simp⟩⟩) (fun _ => by simp)
  rw [Uri.fromStr, reference, bind_of_eq_ok hscheme]
  dsimp only
  rw [bind_of_eq_ok hauthority]
  dsimp only
  rw [hpath, (cut_path h.path).take, bind_of_eq_ok (check_eq_ok.mpr h.path),
    bind_of_eq_ok hreadQuery]
  dsimp only
  rw [bind_of_eq_ok hreadFragment]
  rfl

variable {text : List UInt8}

/-- What is read is well-formed. -/
theorem wellFormed_of_fromStr (h : Uri.fromStr text = .ok u) :
    WellFormed u := by
  obtain ⟨⟨scheme, pos₁⟩, hscheme, h⟩ := bind_eq_ok.mp h
  obtain ⟨⟨authority, pos₂⟩, hauthority, h⟩ := bind_eq_ok.mp h
  dsimp only at h hauthority
  obtain ⟨_, hcheck, h⟩ := bind_eq_ok.mp h
  obtain ⟨⟨query, pos₃⟩, hquery, h⟩ := bind_eq_ok.mp h
  obtain ⟨⟨fragment, pos₄⟩, hfragment, h⟩ := bind_eq_ok.mp h
  dsimp only at h hquery hfragment
  obtain ⟨raw, next₁, htext, hdrop₁, rfl, hraw, hnoScheme⟩ := readScheme_sound hscheme
  obtain ⟨next₂, hsplit₂, hdrop₂, hpart₂, hnone₂⟩ := readAuthority_sound hauthority
  rw [hdrop₂] at h hcheck hquery
  have hcut := cut_findAny [question, hash] next₂
  generalize next₂.take (findAny [question, hash] next₂) = path at h hcheck hquery hcut
  generalize next₂.drop (findAny [question, hash] next₂) = tail at hcut
  obtain ⟨next₃, hsplit₃, hdrop₃, hpart₃, hnone₃⟩ := readMarked_sound hquery
  obtain ⟨next₄, hsplit₄, hdrop₄, hpart₄, hnone₄⟩ := readMarked_sound hfragment
  cases h
  have htail : tail = marked question query ++ next₃ := by
    rw [hcut.eq] at hdrop₂
    rw [← hsplit₃, drop_of_drop hdrop₂]
  have hnext₃ : next₃ = marked hash fragment ++ next₄ := by
    rw [← hdrop₃, hsplit₄]
  -- Nothing is left after the fragment.
  have hnext₄ : next₄ = [] := by
    cases hf : fragment with
    | some f =>
      have hstop := (hpart₄ f hf).2.stop
      cases next₄ with
      | nil => rfl
      | cons c next => exact absurd (hstop c rfl) not_mem_nil
    | none =>
      rw [hf, marked, nil_append] at hnext₃
      have hhash := hnone₄ hf
      have hmarks : ∀ c ∈ next₄.head?, c = question ∧ query = none ∨ c = hash := by
        intro c hc
        cases hq : query with
        | none =>
          have hstop := hcut.stop c (by rw [htail, hq, hnext₃]; exact hc)
          simpa using hstop
        | some q =>
          have hstop := (hpart₃ q hq).2.stop c (by rw [hnext₃]; exact hc)
          simpa using hstop
      cases next₄ with
      | nil => rfl
      | cons c next =>
        rcases hmarks c rfl with ⟨rfl, hq⟩ | rfl
        · exact absurd (by rw [hnext₃]; rfl) (hnone₃ hq)
        · exact absurd rfl hhash
  rw [hnext₄, append_nil] at hnext₃
  have hchars : Chars pathExtra path := check_eq_ok.mp hcheck
  have hnext₂ : next₂ = path ++ (marked question query ++ marked hash fragment) := by
    rw [hcut.eq, htail, hnext₃]
  constructor
  · intro s hs
    cases raw with
    | none => cases hs
    | some s' =>
      cases hs
      exact ⟨checkScheme_lower (hraw s' rfl), toAsciiLowercase_idem s'⟩
  · intro hnone
    have hraw' : raw = none := Option.map_eq_none_iff.mp hnone
    have hsame : toStr ⟨raw.map toAsciiLowercase, authority, path, query, fragment⟩ = text := by
      rw [toStr_eq, htext, ← hdrop₁, hsplit₂, hnext₂, hraw']
      rfl
    rw [hsame]
    exact hnoScheme hraw'
  · intro a ha
    obtain ⟨hcheck', hcut'⟩ := hpart₂ a ha
    refine ⟨hcheck', hcut'.inside, ?_⟩
    cases hpath : path with
    | nil => exact .inl rfl
    | cons c path' =>
      right
      have hstop := hcut'.stop c (by rw [hnext₂, hpath]; rfl)
      have hnot := hcut.inside c (by rw [hpath]; exact mem_cons_self)
      have hslash : c = slash := by
        rcases mem_cons.mp hstop with hslash | hmem
        · exact hslash
        · exact absurd hmem hnot
      rw [hslash]
      exact ⟨path', rfl⟩
  · intro hnone hslashes
    apply hnone₂ hnone
    rw [hnext₂]
    exact hslashes.trans (prefix_append _ _)
  · exact hchars
  · intro q hq
    exact (hpart₃ q hq).1
  · intro f hf
    exact (hpart₄ f hf).1

/-- A text that is read as a reference gives a reference that is read from its text. -/
theorem fromStr_toStr (h : Uri.fromStr text = .ok u) :
    Uri.fromStr (toStr u) = .ok u :=
  (wellFormed_of_fromStr h).fromStr

end Whole

end Wado.Uri
