/-
The components of a reference: where they end, and what each of them admits.
-/
import Wado.Uri.Reader
import Wado.ExceptSteps

namespace Wado.Uri

open ExceptSteps List

section Ends

variable {stops pre rest text : List UInt8}

/-- A text that is cut in two before its first byte of `stops`. -/
structure Cut (stops text pre rest : List UInt8) : Prop where
  eq : text = pre ++ rest
  inside : ∀ c ∈ pre, c ∉ stops
  stop : ∀ c ∈ rest.head?, c ∈ stops

section

variable (h : Cut stops text pre rest)
include h

theorem Cut.findAny : findAny stops text = pre.length := by
  have hrest : rest.takeWhile (fun c => c ∉ stops) = [] := by
    cases rest with
    | nil => rfl
    | cons c rest =>
      have hc : c ∈ stops := h.stop c rfl
      rw [takeWhile_cons, decide_eq_false (not_not.mpr hc)]
      rfl
  rw [Uri.findAny, h.eq, takeWhile_append_of_pos fun c hc => decide_eq_true (h.inside c hc),
    hrest, append_nil]

theorem Cut.take : text.take (Uri.findAny stops text) = pre := by
  rw [h.findAny, h.eq, take_left]

theorem Cut.drop : text.drop (Uri.findAny stops text) = rest := by
  rw [h.findAny, h.eq, drop_left]

end

theorem cut_findAny (stops text : List UInt8) :
    Cut stops text (text.take (findAny stops text)) (text.drop (findAny stops text)) := by
  induction text with
  | nil => exact ⟨rfl, by simp, by simp⟩
  | cons c text ih =>
    by_cases hc : c ∈ stops
    · have hzero : findAny stops (c :: text) = 0 := by
        rw [findAny, takeWhile_cons, decide_eq_false (not_not.mpr hc)]
        rfl
      rw [hzero]
      refine ⟨rfl, by simp, ?_⟩
      intro d hd
      rw [drop_zero, List.head?_cons, Option.mem_some_iff] at hd
      exact hd ▸ hc
    · have hsucc : findAny stops (c :: text) = findAny stops text + 1 := by
        rw [findAny, takeWhile_cons, decide_eq_true hc]
        rfl
      rw [hsucc, take_succ_cons, drop_succ_cons]
      refine ⟨congrArg (c :: ·) ih.eq, ?_, ih.stop⟩
      exact forall_mem_cons.mpr ⟨hc, ih.inside⟩

end Ends

/-- The bytes of a component: those that it admits, and percent-encodings. -/
inductive Chars (extra : List UInt8) : List UInt8 → Prop where
  | nil : Chars extra []
  | char {c : UInt8} {part : List UInt8} (hc : isUnreserved c ∨ isSubDelim c ∨ c ∈ extra)
      (hpercent : c ≠ percent) (hpart : Chars extra part) : Chars extra (c :: part)
  | encoded {a b : UInt8} {part : List UInt8} (ha : isHexdigit a) (hb : isHexdigit b)
      (hpart : Chars extra part) : Chars extra (percent :: a :: b :: part)

section Checked

variable {extra : List UInt8}

variable {component : String} {part : List UInt8}

theorem check_char {i : Nat} {c : UInt8} (hpercent : c ≠ percent) :
    check extra component i (c :: part) =
      if isUnreserved c ∨ isSubDelim c ∨ c ∈ extra then check extra component (i + 1) part
      else fail i ("invalid character in " ++ component) := by
  conv_lhs => unfold check
  match part with
  | [] => exact if_neg hpercent
  | [_] => exact if_neg hpercent
  | _ :: _ :: _ => exact if_neg hpercent

theorem check_encoded {i : Nat} {a b : UInt8} :
    check extra component i (percent :: a :: b :: part) =
      if isHexdigit a ∧ isHexdigit b then check extra component (i + 3) part
      else fail i "invalid percent-encoding" := by
  rw [check, if_pos rfl]

theorem chars_of_check {component : String} : {i : Nat} → {part : List UInt8} →
    check extra component i part = .ok () → Chars extra part
  | _, [], _ => .nil
  | i, c :: part, h => by
    by_cases hpercent : c = percent
    · match part with
      | [] =>
        rw [check, if_pos hpercent] at h
        · cases h
        · exact fun _ _ _ h => nomatch h
      | [_] =>
        rw [check, if_pos hpercent] at h
        · cases h
        · exact fun _ _ _ h => nomatch h
      | a :: b :: part =>
        rw [hpercent, check_encoded] at h
        by_cases hex : isHexdigit a ∧ isHexdigit b
        · rw [if_pos hex] at h
          rw [hpercent]
          exact .encoded hex.1 hex.2 (chars_of_check h)
        · rw [if_neg hex] at h
          cases h
    · rw [check_char hpercent] at h
      by_cases hc : isUnreserved c ∨ isSubDelim c ∨ c ∈ extra
      · rw [if_pos hc] at h
        exact .char hc hpercent (chars_of_check h)
      · rw [if_neg hc] at h
        cases h

/-- The check accepts exactly what the component admits. -/
theorem check_eq_ok {i : Nat} :
    check extra component i part = .ok () ↔ Chars extra part := by
  constructor
  · exact chars_of_check
  · intro h
    induction h generalizing i with
    | nil => rfl
    | char hc hpercent hpart ih =>
      rw [check_char hpercent, if_pos hc]
      exact ih
    | encoded ha hb hpart ih =>
      rw [check_encoded, if_pos ⟨ha, hb⟩]
      exact ih

theorem Chars.append {part part' : List UInt8} (h : Chars extra part) (h' : Chars extra part') :
    Chars extra (part ++ part') := by
  induction h with
  | nil => exact h'
  | char hc hpercent _ ih => exact .char hc hpercent ih
  | encoded ha hb _ ih => exact .encoded ha hb ih

/-- A component can be cut before a slash, no percent-encoding having one. -/
theorem Chars.split {part rest : List UInt8} (h : Chars extra (part ++ rest))
    (hrest : ∀ c ∈ rest.head?, c = slash) : Chars extra part ∧ Chars extra rest := by
  generalize htext : part ++ rest = text at h
  induction h generalizing part with
  | nil =>
    obtain ⟨rfl, rfl⟩ := append_eq_nil_iff.mp htext
    exact ⟨.nil, .nil⟩
  | char hc hpercent hpart ih =>
    cases part with
    | nil =>
      rw [nil_append] at htext
      rw [htext]
      exact ⟨.nil, .char hc hpercent hpart⟩
    | cons d part =>
      obtain ⟨rfl, htail⟩ := List.cons.inj htext
      obtain ⟨hfirst, hlast⟩ := ih htail
      exact ⟨.char hc hpercent hfirst, hlast⟩
  | encoded ha hb hpart ih =>
    have hslash : ¬ isHexdigit slash := by decide
    match part with
    | [] =>
      rw [nil_append] at htext
      rw [htext]
      exact ⟨.nil, .encoded ha hb hpart⟩
    | [_] =>
      obtain ⟨rfl, htail⟩ := List.cons.inj htext
      rw [show rest = _ from htail] at hrest
      exact absurd ha (hrest _ rfl ▸ hslash)
    | [_, _] =>
      obtain ⟨rfl, htail⟩ := List.cons.inj htext
      obtain ⟨rfl, htail'⟩ := List.cons.inj htail
      rw [show rest = _ from htail'] at hrest
      exact absurd hb (hrest _ rfl ▸ hslash)
    | _ :: _ :: _ :: part =>
      obtain ⟨rfl, htail⟩ := List.cons.inj htext
      obtain ⟨rfl, htail'⟩ := List.cons.inj htail
      obtain ⟨rfl, hnext⟩ := List.cons.inj htail'
      obtain ⟨hfirst, hlast⟩ := ih hnext
      exact ⟨.encoded ha hb hfirst, hlast⟩

theorem Chars.head_slash (h : Chars extra (slash :: part)) :
    isUnreserved slash ∨ isSubDelim slash ∨ slash ∈ extra := by
  generalize htext : slash :: part = text at h
  cases h with
  | nil => cases htext
  | char hc _ _ =>
    obtain ⟨rfl, _⟩ := List.cons.inj htext
    exact hc
  | encoded _ _ _ => exact absurd (List.cons.inj htext).1 (by decide)

theorem Chars.tail_slash (h : Chars extra (slash :: part)) :
    Chars extra part := by
  generalize htext : slash :: part = text at h
  cases h with
  | nil => cases htext
  | char _ _ hpart =>
    obtain ⟨_, rfl⟩ := List.cons.inj htext
    exact hpart
  | encoded _ _ _ => exact absurd (List.cons.inj htext).1 (by decide)

/-- No byte of a component is one that it does not admit. -/
theorem Chars.not_mem (h : Chars extra part) {c : UInt8}
    (hc : ¬ (isUnreserved c ∨ isSubDelim c ∨ c ∈ extra)) (hhex : ¬ isHexdigit c)
    (hpercent : c ≠ percent) : c ∉ part := by
  induction h with
  | nil => exact not_mem_nil
  | char hd _ _ ih =>
    rw [mem_cons, not_or]
    exact ⟨fun heq => hc (heq ▸ hd), ih⟩
  | encoded ha hb _ ih =>
    simp only [mem_cons, not_or]
    exact ⟨hpercent, fun heq => hhex (heq ▸ ha), fun heq => hhex (heq ▸ hb), ih⟩

end Checked

end Wado.Uri
