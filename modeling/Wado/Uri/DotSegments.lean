/-
Removing the dot segments of a path: the loop takes the steps of RFC 3986 section 5.2.4,
and leaves no dot segment.
-/
import Wado.Uri.Components

namespace Wado.Uri

open List

/-- The output without its last segment and the slash before it, if any. -/
inductive DropsLast : List UInt8 → List UInt8 → Prop where
  | cut {pre last : List UInt8} (hlast : slash ∉ last) : DropsLast (pre ++ slash :: last) pre
  | whole {last : List UInt8} (hlast : slash ∉ last) : DropsLast last []

/-- The first segment of a path, with its slash if any, is no dot segment. -/
inductive FirstSegment : List UInt8 → Prop where
  | slashed {segment : List UInt8} (hslash : slash ∉ segment)
      (hdot : segment ≠ [dot] ∧ segment ≠ [dot, dot]) : FirstSegment (slash :: segment)
  | bare {segment : List UInt8} (hslash : slash ∉ segment) (hempty : segment ≠ [])
      (hdot : segment ≠ [dot] ∧ segment ≠ [dot, dot]) : FirstSegment segment

/-- The rules of section 5.2.4, over an input and an output buffer, and what they end with. -/
inductive RemovesDots : List UInt8 → List UInt8 → List UInt8 → Prop where
  | done {out : List UInt8} : RemovesDots [] out out
  | parentPrefix {input out res : List UInt8} (h : RemovesDots input out res) :
      RemovesDots (dot :: dot :: slash :: input) out res
  | selfPrefix {input out res : List UInt8} (h : RemovesDots input out res) :
      RemovesDots (dot :: slash :: input) out res
  | selfSegment {input out res : List UInt8} (h : RemovesDots (slash :: input) out res) :
      RemovesDots (slash :: dot :: slash :: input) out res
  | selfLast {out res : List UInt8} (h : RemovesDots [slash] out res) :
      RemovesDots [slash, dot] out res
  | parentSegment {input out out' res : List UInt8} (hout : DropsLast out out')
      (h : RemovesDots (slash :: input) out' res) :
      RemovesDots (slash :: dot :: dot :: slash :: input) out res
  | parentLast {out out' res : List UInt8} (hout : DropsLast out out')
      (h : RemovesDots [slash] out' res) : RemovesDots [slash, dot, dot] out res
  | selfOnly {out : List UInt8} : RemovesDots [dot] out out
  | parentOnly {out : List UInt8} : RemovesDots [dot, dot] out out
  | segment {first input out res : List UInt8} (hfirst : FirstSegment first)
      (hinput : ∀ c ∈ input.head?, c = slash) (h : RemovesDots input (out ++ first) res) :
      RemovesDots (first ++ input) out res

section Truncation

theorem exists_last_of_mem {c : UInt8} {text : List UInt8} (h : c ∈ text) :
    ∃ pre last, text = pre ++ c :: last ∧ c ∉ last := by
  obtain ⟨last, pre, hreverse, hlast⟩ := eq_append_cons_of_mem (mem_reverse.mpr h)
  refine ⟨pre.reverse, last.reverse, ?_, by rwa [mem_reverse]⟩
  rw [← reverse_reverse text, hreverse, reverse_append, reverse_cons,
    append_assoc]
  rfl

theorem rfind_append {c : UInt8} {pre last : List UInt8} (h : c ∉ last) :
    rfind c (pre ++ c :: last) = some pre.length := by
  have hcut : Cut [c] (pre ++ c :: last).reverse last.reverse (c :: pre.reverse) := by
    refine ⟨?_, ?_, ?_⟩
    · rw [reverse_append, reverse_cons, append_assoc]
      rfl
    · intro d hd hmem
      rw [mem_singleton] at hmem
      rw [mem_reverse, hmem] at hd
      exact h hd
    · intro d hd
      cases hd
      exact mem_singleton_self c
  rw [rfind, if_pos (mem_append_right _ mem_cons_self), hcut.findAny,
    length_append, length_cons, length_reverse]
  congr 1
  omega

/-- What the loop's truncation leaves. -/
theorem dropsLast_iff {out out' : List UInt8} :
    DropsLast out out' ↔ out' = out.take ((rfind slash out).getD 0) := by
  have hcut {pre last : List UInt8} (hlast : slash ∉ last) :
      (pre ++ slash :: last).take ((rfind slash (pre ++ slash :: last)).getD 0) = pre := by
    rw [rfind_append hlast, Option.getD_some, take_left]
  constructor
  · intro h
    cases h with
    | cut hlast => exact (hcut hlast).symm
    | whole hlast =>
      rw [rfind, if_neg hlast]
      rfl
  · rintro rfl
    by_cases hmem : slash ∈ out
    · obtain ⟨pre, last, rfl, hlast⟩ := exists_last_of_mem hmem
      rw [hcut hlast]
      exact .cut hlast
    · rw [rfind, if_neg hmem]
      exact .whole hmem

end Truncation

section Loop

theorem not_mem_of_cut {text pre rest : List UInt8} (h : Cut [slash] text pre rest) :
    slash ∉ pre ∧ ∀ c ∈ rest.head?, c = slash := by
  constructor
  · intro hmem
    exact h.inside slash hmem (mem_singleton_self slash)
  · intro c hc
    exact mem_singleton.mp (h.stop c hc)

/-- A segment that the loop moves is no dot segment, the cases before it failing. -/
theorem not_dots {lead segment input : List UInt8} (hinput : ∀ c ∈ input.head?, c = slash)
    (hself : ¬ lead ++ [dot, slash] <+: lead ++ (segment ++ input))
    (hselfOnly : lead ++ (segment ++ input) ≠ lead ++ [dot])
    (hparent : ¬ lead ++ [dot, dot, slash] <+: lead ++ (segment ++ input))
    (hparentOnly : lead ++ (segment ++ input) ≠ lead ++ [dot, dot]) :
    segment ≠ [dot] ∧ segment ≠ [dot, dot] := by
  constructor
  · rintro rfl
    cases input with
    | nil => exact hselfOnly rfl
    | cons c input =>
      rw [hinput c rfl] at hself
      apply hself
      rw [prefix_append_right_inj]
      exact ⟨input, rfl⟩
  · rintro rfl
    cases input with
    | nil => exact hparentOnly rfl
    | cons c input =>
      rw [hinput c rfl] at hparent
      apply hparent
      rw [prefix_append_right_inj]
      exact ⟨input, rfl⟩

/-- The loop takes the steps of the rules. -/
theorem removesDots_removeDotsFrom {fuel : Nat} {input : List UInt8} (hfuel : input.length ≤ fuel)
    (out : List UInt8) : RemovesDots input out (removeDotsFrom fuel input out) := by
  induction fuel generalizing input out with
  | zero =>
    rw [length_eq_zero_iff.mp (Nat.le_zero.mp hfuel)]
    exact .done
  | succ fuel ih =>
    rw [removeDotsFrom]
    by_cases hempty : input = []
    · rw [if_pos hempty, hempty]
      exact .done
    rw [if_neg hempty]
    by_cases hparent : [dot, dot, slash] <+: input
    · rw [if_pos hparent]
      obtain ⟨rest, rfl⟩ := hparent
      simp only [length_append, length_cons, length_nil] at hfuel
      exact .parentPrefix (ih (show rest.length ≤ fuel by omega) out)
    rw [if_neg hparent]
    by_cases hself : [dot, slash] <+: input ∨ [slash, dot, slash] <+: input
    · rw [if_pos hself]
      rcases hself with ⟨rest, rfl⟩ | ⟨rest, rfl⟩
      · simp only [length_append, length_cons, length_nil] at hfuel
        exact .selfPrefix (ih (show rest.length ≤ fuel by omega) out)
      · simp only [length_append, length_cons, length_nil] at hfuel
        exact .selfSegment (ih (show (slash :: rest).length ≤ fuel by rw [length_cons]; omega)
          out)
    rw [if_neg hself]
    by_cases hselfLast : input = [slash, dot]
    · rw [if_pos hselfLast, hselfLast]
      apply RemovesDots.selfLast
      apply ih
      rw [hselfLast] at hfuel
      exact Nat.le_of_succ_le_succ hfuel
    rw [if_neg hselfLast]
    by_cases hparents : [slash, dot, dot, slash] <+: input ∨ input = [slash, dot, dot]
    · rw [if_pos hparents]
      rcases hparents with ⟨rest, rfl⟩ | rfl
      · simp only [length_append, length_cons, length_nil] at hfuel
        rw [if_neg (by simp)]
        exact .parentSegment (dropsLast_iff.mpr rfl)
          (ih (show (slash :: rest).length ≤ fuel by rw [length_cons]; omega) _)
      · simp only [length_cons, length_nil] at hfuel
        rw [if_pos rfl]
        exact .parentLast (dropsLast_iff.mpr rfl) (ih (by rw [length_singleton]; omega) _)
    rw [if_neg hparents]
    by_cases hdots : input = [dot] ∨ input = [dot, dot]
    · rw [if_pos hdots]
      rcases hdots with rfl | rfl
      · exact .selfOnly
      · exact .parentOnly
    rw [if_neg hdots]
    dsimp only
    rw [not_or] at hself hparents hdots
    by_cases hslash : [slash] <+: input
    · rw [if_pos hslash]
      obtain ⟨rest, rfl⟩ := hslash
      have hcut := cut_findAny [slash] rest
      rw [cons_append, nil_append, drop_succ_cons, drop_zero, Nat.add_comm 1,
        drop_succ_cons, take_succ_cons]
      generalize rest.take (findAny [slash] rest) = segment at hcut ⊢
      generalize rest.drop (findAny [slash] rest) = next at hcut ⊢
      obtain ⟨hinside, hnext⟩ := not_mem_of_cut hcut
      obtain rfl := hcut.eq
      have hsegment := @not_dots [slash] segment next hnext hself.2 hselfLast hparents.1 hparents.2
      apply RemovesDots.segment (.slashed hinside hsegment) hnext
      apply ih
      simp only [cons_append, nil_append, length_cons, length_append] at hfuel
      omega
    · rw [if_neg hslash]
      have hcut := cut_findAny [slash] input
      rw [drop_zero, Nat.zero_add]
      generalize input.take (findAny [slash] input) = segment at hcut ⊢
      generalize input.drop (findAny [slash] input) = next at hcut ⊢
      obtain ⟨hinside, hnext⟩ := not_mem_of_cut hcut
      obtain rfl := hcut.eq
      have hsegment := @not_dots [] segment next hnext hself.1 hdots.1 hparent hdots.2
      have hne : segment ≠ [] := by
        rintro rfl
        cases next with
        | nil => exact hempty rfl
        | cons c next =>
          apply hslash
          rw [hnext c rfl]
          exact ⟨next, rfl⟩
      apply RemovesDots.segment (.bare hinside hne hsegment) hnext
      apply ih
      have hpos := length_pos_iff.mpr hne
      rw [length_append] at hfuel
      omega

theorem removesDots_removeDotSegments (path : List UInt8) :
    RemovesDots path [] (removeDotSegments path) :=
  removesDots_removeDotsFrom (Nat.le_refl _) []

end Loop

section Runs

variable {input out res : List UInt8}

/-- The path has no dot segment. -/
def NoDots (path : List UInt8) : Prop :=
  ∀ segment ∈ path.splitOn slash, segment ≠ [dot] ∧ segment ≠ [dot, dot]

theorem noDots_nil : NoDots [] := by
  intro segment hsegment
  rw [splitOn_nil, mem_singleton] at hsegment
  rw [hsegment]
  exact ⟨by simp, by simp⟩

variable {out' : List UInt8}

theorem NoDots.dropsLast (h : NoDots out) (hdrops : DropsLast out out') :
    NoDots out' := by
  cases hdrops with
  | cut hlast =>
    intro segment hsegment
    apply h
    rw [splitOn_append_cons_self]
    exact mem_append_left _ hsegment
  | whole hlast => exact noDots_nil

theorem NoDots.slashed {segment : List UInt8} (h : NoDots out) (hslash : slash ∉ segment)
    (hdot : segment ≠ [dot] ∧ segment ≠ [dot, dot]) : NoDots (out ++ slash :: segment) := by
  intro segment' hmem
  rw [splitOn_append_cons_self, splitOn_eq_singleton hslash, mem_append,
    mem_singleton] at hmem
  rcases hmem with hmem | rfl
  · exact h segment' hmem
  · exact hdot

/-- What the rules leave has no dot segment. -/
theorem RemovesDots.noDots (h : RemovesDots input out res) (hout : NoDots out)
    (hstart : out = [] ∨ ∀ c ∈ input.head?, c = slash) : NoDots res := by
  induction h with
  | done => exact hout
  | parentPrefix _ ih =>
    have hnil := hstart.resolve_right fun h => absurd (h dot rfl) (by decide)
    exact ih hout (.inl hnil)
  | selfPrefix _ ih =>
    have hnil := hstart.resolve_right fun h => absurd (h dot rfl) (by decide)
    exact ih hout (.inl hnil)
  | selfSegment _ ih => exact ih hout (.inr (by simp))
  | selfLast _ ih => exact ih hout (.inr (by simp))
  | parentSegment hdrops _ ih => exact ih (hout.dropsLast hdrops) (.inr (by simp))
  | parentLast hdrops _ ih => exact ih (hout.dropsLast hdrops) (.inr (by simp))
  | selfOnly => exact hout
  | parentOnly => exact hout
  | segment hfirst hinput _ ih =>
    refine ih ?_ (.inr hinput)
    cases hfirst with
    | slashed hslash hdot => exact hout.slashed hslash hdot
    | bare hslash hempty hdot =>
      have hnil : _ = [] := hstart.resolve_right fun h => by
        obtain ⟨c, segment, hsegment⟩ := exists_cons_of_ne_nil hempty
        rw [hsegment, mem_cons, not_or] at hslash
        exact hslash.1 (h c (by rw [hsegment]; rfl)).symm
      rw [hnil, nil_append]
      intro segment' hmem
      rw [splitOn_eq_singleton hslash, mem_singleton] at hmem
      rw [hmem]
      exact hdot

theorem Chars.dropsLast {extra out' : List UInt8} (h : Chars extra out)
    (hdrops : DropsLast out out') :
    Chars extra out' := by
  cases hdrops with
  | cut hlast => exact (h.split (by simp)).1
  | whole hlast => exact .nil

/-- The rules keep the bytes of a path. -/
theorem RemovesDots.chars {extra : List UInt8} (h : RemovesDots input out res)
    (hinput : Chars extra input) (hout : Chars extra out) : Chars extra res := by
  induction h with
  | done => exact hout
  | @parentPrefix input _ _ _ ih =>
    have hsplit := @Chars.split extra [dot, dot] (slash :: input) hinput (by simp)
    exact ih hsplit.2.tail_slash hout
  | @selfPrefix input _ _ _ ih =>
    have hsplit := @Chars.split extra [dot] (slash :: input) hinput (by simp)
    exact ih hsplit.2.tail_slash hout
  | @selfSegment input _ _ _ ih =>
    exact ih (@Chars.split extra [slash, dot] (slash :: input) hinput (by simp)).2 hout
  | selfLast _ ih => exact ih (.char (hinput.head_slash) (by decide) .nil) hout
  | @parentSegment input _ _ _ hdrops _ ih =>
    exact ih (@Chars.split extra [slash, dot, dot] (slash :: input) hinput (by simp)).2
      (hout.dropsLast hdrops)
  | parentLast hdrops _ ih =>
    exact ih (.char (hinput.head_slash) (by decide) .nil) (hout.dropsLast hdrops)
  | selfOnly => exact hout
  | parentOnly => exact hout
  | segment _ hhead _ ih =>
    obtain ⟨hfirst, hrest⟩ := hinput.split hhead
    exact ih hrest (hout.append hfirst)

theorem head?_dropsLast (h : ∀ c ∈ out.head?, c = slash)
    (hdrops : DropsLast out out') : ∀ c ∈ out'.head?, c = slash := by
  cases hdrops with
  | @cut pre last hlast =>
    cases out' with
    | nil => simp
    | cons c pre => exact h
  | whole hlast => simp

/-- The rules leave a path that starts with a slash one that does, or an empty one. -/
theorem RemovesDots.head? (h : RemovesDots input out res) (hinput : ∀ c ∈ input.head?, c = slash)
    (hout : ∀ c ∈ out.head?, c = slash) : ∀ c ∈ res.head?, c = slash := by
  induction h with
  | done => exact hout
  | parentPrefix _ _ => exact absurd (hinput dot rfl) (by decide)
  | selfPrefix _ _ => exact absurd (hinput dot rfl) (by decide)
  | selfSegment _ ih => exact ih (by simp) hout
  | selfLast _ ih => exact ih (by simp) hout
  | parentSegment hdrops _ ih => exact ih (by simp) (head?_dropsLast hout hdrops)
  | parentLast hdrops _ ih => exact ih (by simp) (head?_dropsLast hout hdrops)
  | selfOnly => exact hout
  | parentOnly => exact hout
  | @segment first input out res hfirst hhead _ ih =>
    apply ih hhead
    intro c hc
    cases out with
    | nil =>
      apply hinput
      cases first with
      | nil => exact absurd rfl (show ([] : List UInt8) ≠ [] by cases hfirst; assumption)
      | cons d first => exact hc
    | cons d out => exact hout c hc

theorem cut_of_segment {segment input : List UInt8} (hslash : slash ∉ segment)
    (hinput : ∀ c ∈ input.head?, c = slash) : Cut [slash] (segment ++ input) segment input :=
  ⟨rfl, fun _ hc hmem => hslash (mem_singleton.mp hmem ▸ hc),
    fun c hc => mem_singleton.mpr (hinput c hc)⟩

/-- A text has one first segment. -/
theorem segment_unique {segment input segment' input' : List UInt8} (hslash : slash ∉ segment)
    (hinput : ∀ c ∈ input.head?, c = slash) (hslash' : slash ∉ segment')
    (hinput' : ∀ c ∈ input'.head?, c = slash) (h : segment ++ input = segment' ++ input') :
    segment = segment' := by
  have hcut := cut_of_segment hslash hinput
  have hcut' := cut_of_segment hslash' hinput'
  rw [← h] at hcut'
  exact hcut.take.symm.trans hcut'.take

theorem not_mem_dots : slash ∉ [dot] ∧ slash ∉ [dot, dot] := by decide

/-- A segment that is no dot segment fails the cases of the loop before its own. -/
theorem dots_fail {lead segment input : List UInt8} (hslash : slash ∉ segment)
    (hinput : ∀ c ∈ input.head?, c = slash) (hdot : segment ≠ [dot] ∧ segment ≠ [dot, dot]) :
    ¬ lead ++ [dot, slash] <+: lead ++ (segment ++ input) ∧
      lead ++ (segment ++ input) ≠ lead ++ [dot] ∧
      ¬ lead ++ [dot, dot, slash] <+: lead ++ (segment ++ input) ∧
      lead ++ (segment ++ input) ≠ lead ++ [dot, dot] := by
  refine ⟨?_, ?_, ?_, ?_⟩
  · rw [prefix_append_right_inj]
    rintro ⟨rest, hrest⟩
    exact hdot.1 (@segment_unique segment input [dot] (slash :: rest) hslash hinput not_mem_dots.1
      (by simp) hrest.symm)
  · intro h
    exact hdot.1 (@segment_unique segment input [dot] [] hslash hinput not_mem_dots.1 (by simp)
      (append_cancel_left h))
  · rw [prefix_append_right_inj]
    rintro ⟨rest, hrest⟩
    exact hdot.2 (@segment_unique segment input [dot, dot] (slash :: rest) hslash hinput
      not_mem_dots.2 (by simp) hrest.symm)
  · intro h
    exact hdot.2 (@segment_unique segment input [dot, dot] [] hslash hinput not_mem_dots.2 (by simp)
      (append_cancel_left h))

variable {part text : List UInt8}

theorem not_prefix_of_head {c d : UInt8} (h : c ≠ d) :
    ¬ c :: part <+: d :: text := fun hprefix => h (cons_prefix_cons.mp hprefix).1

theorem ne_of_head {c d : UInt8} (h : c ≠ d) : c :: text ≠ d :: part :=
  fun heq => h (List.cons.inj heq).1

/-- The rules leave one path. -/
theorem RemovesDots.eq_removeDotsFrom (h : RemovesDots input out res) {fuel : Nat}
    (hfuel : input.length ≤ fuel) : removeDotsFrom fuel input out = res := by
  have hdotSlash : dot ≠ Uri.slash := by decide
  induction h generalizing fuel with
  | @done out =>
    cases fuel with
    | zero => rfl
    | succ fuel => rw [removeDotsFrom, if_pos rfl]
  | @parentPrefix input out res _ ih =>
    cases fuel with
    | zero => exact absurd hfuel (Nat.not_succ_le_zero _)
    | succ fuel =>
      simp only [length_cons] at hfuel
      rw [removeDotsFrom, if_neg (by simp), if_pos ⟨input, rfl⟩]
      exact ih (show input.length ≤ fuel by omega)
  | @selfPrefix input out res _ ih =>
    cases fuel with
    | zero => exact absurd hfuel (Nat.not_succ_le_zero _)
    | succ fuel =>
      simp only [length_cons] at hfuel
      have hparent : ¬ [dot, dot, slash] <+: dot :: slash :: input := by
        rw [cons_prefix_cons]
        exact fun h => not_prefix_of_head hdotSlash h.2
      rw [removeDotsFrom, if_neg (by simp), if_neg hparent, if_pos (.inl ⟨input, rfl⟩)]
      exact ih (show input.length ≤ fuel by omega)
  | @selfSegment input out res _ ih =>
    cases fuel with
    | zero => exact absurd hfuel (Nat.not_succ_le_zero _)
    | succ fuel =>
      simp only [length_cons] at hfuel
      rw [removeDotsFrom, if_neg (by simp), if_neg (not_prefix_of_head hdotSlash),
        if_pos (.inr ⟨input, rfl⟩)]
      exact ih (show (slash :: input).length ≤ fuel by rw [length_cons]; omega)
  | @selfLast out res _ ih =>
    cases fuel with
    | zero => exact absurd hfuel (Nat.not_succ_le_zero _)
    | succ fuel =>
      have hself : ¬ ([dot, slash] <+: [slash, dot] ∨ [slash, dot, slash] <+: [slash, dot]) := by
        decide
      rw [removeDotsFrom, if_neg (by simp), if_neg (not_prefix_of_head hdotSlash), if_neg hself,
        if_pos rfl]
      exact ih (Nat.le_of_succ_le_succ hfuel)
  | @parentSegment input out out' res hdrops _ ih =>
    cases fuel with
    | zero => exact absurd hfuel (Nat.not_succ_le_zero _)
    | succ fuel =>
      simp only [length_cons] at hfuel
      have hself : ¬ ([dot, slash] <+: slash :: dot :: dot :: slash :: input ∨
          [slash, dot, slash] <+: slash :: dot :: dot :: slash :: input) := by
        rintro (h | h)
        · exact not_prefix_of_head hdotSlash h
        · rw [cons_prefix_cons, cons_prefix_cons] at h
          exact not_prefix_of_head hdotSlash.symm h.2.2
      rw [removeDotsFrom, if_neg (by simp), if_neg (not_prefix_of_head hdotSlash), if_neg hself,
        if_neg (by simp), if_pos (.inl ⟨input, rfl⟩), if_neg (by simp), ← dropsLast_iff.mp hdrops]
      exact ih (show (slash :: input).length ≤ fuel by rw [length_cons]; omega)
  | @parentLast out out' res hdrops _ ih =>
    cases fuel with
    | zero => exact absurd hfuel (Nat.not_succ_le_zero _)
    | succ fuel =>
      simp only [length_cons, length_nil] at hfuel
      have hself : ¬ ([dot, slash] <+: [slash, dot, dot] ∨
          [slash, dot, slash] <+: [slash, dot, dot]) := by decide
      rw [removeDotsFrom, if_neg (by simp), if_neg (not_prefix_of_head hdotSlash), if_neg hself,
        if_neg (by simp), if_pos (.inr rfl), if_pos rfl, ← dropsLast_iff.mp hdrops]
      exact ih (show 1 ≤ fuel by omega)
  | selfOnly =>
    cases fuel with
    | zero => exact absurd hfuel (Nat.not_succ_le_zero _)
    | succ fuel =>
      rw [removeDotsFrom, if_neg (by simp), if_neg (by decide), if_neg (by decide),
        if_neg (by decide), if_neg (by decide), if_pos (.inl rfl)]
  | parentOnly =>
    cases fuel with
    | zero => exact absurd hfuel (Nat.not_succ_le_zero _)
    | succ fuel =>
      rw [removeDotsFrom, if_neg (by simp), if_neg (by decide), if_neg (by decide),
        if_neg (by decide), if_neg (by decide), if_pos (.inr rfl)]
  | @segment first input out res hfirst hhead _ ih =>
    rw [length_append] at hfuel
    cases hfirst with
    | @slashed segment hslash hdot =>
      obtain ⟨hself, hselfLast, hparent, hparentLast⟩ := @dots_fail [Uri.slash] _ _ hslash hhead
        hdot
      simp only [cons_append, nil_append] at hself hselfLast hparent hparentLast
      rw [length_cons] at hfuel
      cases fuel with
      | zero => omega
      | succ fuel =>
        have hcut := (cut_of_segment hslash hhead).findAny
        have hslashed : [Uri.slash] <+: Uri.slash :: (segment ++ input) := ⟨_, rfl⟩
        rw [cons_append, removeDotsFrom, if_neg (by simp),
          if_neg (not_prefix_of_head hdotSlash),
          if_neg (not_or.mpr ⟨not_prefix_of_head hdotSlash, hself⟩), if_neg hselfLast,
          if_neg (not_or.mpr ⟨hparent, hparentLast⟩),
          if_neg (not_or.mpr ⟨ne_of_head hdotSlash.symm, ne_of_head hdotSlash.symm⟩)]
        dsimp only
        rw [if_pos hslashed, drop_succ_cons, drop_zero, hcut, Nat.add_comm 1,
          drop_succ_cons, drop_left, take_succ_cons, take_left]
        exact ih (by omega)
    | bare hslash hempty hdot =>
      obtain ⟨hself, hselfLast, hparent, hparentLast⟩ := @dots_fail [] _ _ hslash hhead hdot
      simp only [nil_append] at hself hselfLast hparent hparentLast
      have hpos := length_pos_iff.mpr hempty
      cases fuel with
      | zero => omega
      | succ fuel =>
        have hcut := (cut_of_segment hslash hhead).findAny
        have hslashed : ¬ [Uri.slash] <+: first ++ input := by
          cases first with
          | nil => exact absurd rfl hempty
          | cons c segment =>
            rw [mem_cons, not_or] at hslash
            exact not_prefix_of_head hslash.1
        have hslashes {part : List UInt8} : ¬ Uri.slash :: part <+: first ++ input := fun h =>
          hslashed ((show [Uri.slash] <+: Uri.slash :: part from ⟨part, rfl⟩).trans h)
        have hslashesOnly {part : List UInt8} : first ++ input ≠ Uri.slash :: part := fun h =>
          hslashed (h ▸ ⟨part, rfl⟩)
        rw [removeDotsFrom, if_neg (by simp [hempty]), if_neg hparent,
          if_neg (not_or.mpr ⟨hself, hslashes⟩), if_neg hslashesOnly,
          if_neg (not_or.mpr ⟨hslashes, hslashesOnly⟩),
          if_neg (not_or.mpr ⟨hselfLast, hparentLast⟩)]
        dsimp only
        rw [if_neg hslashed, drop_zero, hcut, Nat.zero_add, drop_left, take_left]
        exact ih (by omega)

theorem noDots_append_slash (pre : List UInt8) {rest : List UInt8} :
    NoDots (pre ++ slash :: rest) ↔ NoDots pre ∧ NoDots rest := by
  rw [NoDots, splitOn_append_cons_self, forall_mem_append]
  rfl

/-- The rules keep a path that has no dot segment. -/
theorem RemovesDots.eq_append (h : RemovesDots input out res) (hinput : NoDots input) :
    res = out ++ input := by
  have hslash {rest : List UInt8} (h : NoDots (slash :: rest)) : NoDots rest :=
    ((noDots_append_slash []).mp h).2
  have hparent {rest : List UInt8} : ¬ NoDots (dot :: dot :: slash :: rest) := fun h =>
    ((noDots_append_slash [dot, dot]).mp h).1 [dot, dot] (by decide) |>.2 rfl
  have hself {rest : List UInt8} : ¬ NoDots (dot :: slash :: rest) := fun h =>
    ((noDots_append_slash [dot]).mp h).1 [dot] (by decide) |>.1 rfl
  induction h with
  | done => rw [append_nil]
  | parentPrefix => exact absurd hinput hparent
  | selfPrefix => exact absurd hinput hself
  | selfSegment => exact absurd (hslash hinput) hself
  | parentSegment => exact absurd (hslash hinput) hparent
  | selfLast | selfOnly => exact absurd rfl (hinput [dot] (by decide)).1
  | parentLast | parentOnly => exact absurd rfl (hinput [dot, dot] (by decide)).2
  | @segment first input out res _ hnext _ ih =>
    rw [ih ?_, append_assoc]
    cases input with
    | nil => exact noDots_nil
    | cons c rest =>
      rw [hnext c rfl] at hinput ⊢
      exact (noDots_append_slash []).mpr ⟨noDots_nil, ((noDots_append_slash _).mp hinput).2⟩

/-- Removing dot segments is what the rules say. -/
theorem removesDots_iff {path : List UInt8} :
    RemovesDots path [] res ↔ removeDotSegments path = res := by
  constructor
  · intro h
    exact h.eq_removeDotsFrom (Nat.le_refl _)
  · rintro rfl
    exact removesDots_removeDotSegments path

/-- Removing dot segments is what the rules say, leaves none, and changes nothing again. -/
theorem removeDotSegments_exact (path : List UInt8) :
    (∀ res, RemovesDots path [] res ↔ removeDotSegments path = res) ∧
      NoDots (removeDotSegments path) ∧
      removeDotSegments (removeDotSegments path) = removeDotSegments path := by
  have hnone := (removesDots_removeDotSegments path).noDots noDots_nil (.inl rfl)
  exact ⟨fun _ => removesDots_iff, hnone, (removesDots_removeDotSegments _).eq_append hnone⟩

end Runs

end Wado.Uri
