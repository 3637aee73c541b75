/-
Sets of code points as lists of inclusive ranges: normalizing and complementing them, and what
a class of a pattern matches.
-/
import Mathlib.Data.Nat.Basic
import Mathlib.Tactic.Basic
import Wado.MergeRuns

namespace Wado.Re

open MergeRuns List

/-- A range, its low end and its high one. -/
abbrev Range := Nat × Nat

def maxCodePoint : Nat := 0x10FFFF

/-- The ranges from a last one on, which the next may still be merged into. -/
def mergeFrom : Range → List Range → List Range
  | last, [] => [last]
  | last, r :: rest =>
    if r.1 ≤ last.2 + 1 then
      if r.2 > last.2 then mergeFrom (last.1, r.2) rest else mergeFrom last rest
    else last :: mergeFrom r rest

/-- A comparator of low ends, which `sort_by` sorts with. -/
def byLow (_ : Unit) (a b : Range) : Ordering × Unit := (compare a.1 b.1, ())

def normalize (set : List Range) : List Range :=
  match (sortWith byLow 1 () set).1 with
  | [] => []
  | r :: rest => mergeFrom r rest

/-- What is left out from a code point on. -/
def complementFrom : Nat → List Range → List Range
  | next, [] => if next ≤ maxCodePoint then [(next, maxCodePoint)] else []
  | next, (lo, hi) :: rest =>
    if lo > next then (next, lo - 1) :: complementFrom (hi + 1) rest
    else complementFrom (hi + 1) rest

def complement (set : List Range) : List Range := complementFrom 0 set

/-- An inclusive range of code points. -/
def IsRange (r : Range) : Prop := r.1 ≤ r.2 ∧ r.2 ≤ maxCodePoint

instance : DecidablePred IsRange := fun _ => inferInstanceAs (Decidable (_ ∧ _))

/-- Ranges of code points in order, some code point between any two. -/
structure Normal (set : List Range) : Prop where
  range : ∀ r ∈ set, IsRange r
  apart : set.Pairwise fun a b => a.2 + 1 < b.1

/-- A code point is in one of the ranges. -/
def Has (set : List Range) (cp : Nat) : Prop := ∃ r ∈ set, r.1 ≤ cp ∧ cp ≤ r.2

section Ranges

variable {set rest : List Range} {r : Range} {cp : Nat}

theorem has_cons : Has (r :: rest) cp ↔ (r.1 ≤ cp ∧ cp ≤ r.2) ∨ Has rest cp := by
  unfold Has
  simp

theorem not_has_nil : ¬ Has [] cp := by
  rintro ⟨r, hr, -⟩
  cases hr

theorem Normal.nil : Normal [] := ⟨forall_mem_nil _, List.Pairwise.nil⟩

theorem normal_cons :
    Normal (r :: rest) ↔ IsRange r ∧ (∀ s ∈ rest, r.2 + 1 < s.1) ∧ Normal rest := by
  constructor
  · rintro ⟨hrange, hapart⟩
    obtain ⟨hr, hrange⟩ := forall_mem_cons.mp hrange
    obtain ⟨hlt, hapart⟩ := pairwise_cons.mp hapart
    exact ⟨hr, hlt, hrange, hapart⟩
  · rintro ⟨hr, hlt, hrange, hapart⟩
    exact ⟨forall_mem_cons.mpr ⟨hr, hrange⟩, pairwise_cons.mpr ⟨hlt, hapart⟩⟩

theorem Normal.le (h : Normal set) (hcp : Has set cp) : cp ≤ maxCodePoint := by
  obtain ⟨r, hr, hin⟩ := hcp
  exact le_trans hin.2 (h.range r hr).2

/-- What is in the later ranges is past the first one and what follows it. -/
theorem lt_of_has (h : Normal (r :: rest)) (hcp : Has rest cp) : r.2 + 1 < cp := by
  obtain ⟨s, hs, hin⟩ := hcp
  exact lt_of_lt_of_le ((normal_cons.mp h).2.1 s hs) hin.1

theorem le_of_has (h : Normal (r :: rest)) (hcp : Has (r :: rest) cp) : r.1 ≤ cp := by
  rcases has_cons.mp hcp with hin | hlater
  · exact hin.1
  · have hle := (normal_cons.mp h).1.1
    have hlt := lt_of_has h hlater
    omega

end Ranges

section Unique

/-- The first range is no longer than that of a list with the same code points. -/
theorem first_le {r s : Range} {rest more : List Range} (hr : Normal (r :: rest))
    (hs : Normal (s :: more)) (h : ∀ cp, Has (r :: rest) cp ↔ Has (s :: more) cp) :
    s.1 ≤ r.1 ∧ r.2 ≤ s.2 := by
  have hle := (normal_cons.mp hr).1.1
  have hhead : ∀ cp, r.1 ≤ cp → cp ≤ r.2 → Has (s :: more) cp := fun cp hlo hhi =>
    (h cp).mp (has_cons.mpr (.inl ⟨hlo, hhi⟩))
  have hlow : s.1 ≤ r.1 := le_of_has hs (hhead r.1 le_rfl hle)
  refine ⟨hlow, ?_⟩
  by_contra hlt
  -- past the end of the shorter range there is a code point that its list has not
  have hshort := (normal_cons.mp hs).1.1
  have hfirst : r.1 ≤ s.1 := le_of_has hr ((h s.1).mpr (has_cons.mpr (.inl ⟨le_rfl, hshort⟩)))
  rcases has_cons.mp (hhead (s.2 + 1) (by omega) (by omega)) with hin | hlater
  · omega
  · have := lt_of_has hs hlater
    omega

/-- A normal list is told by its code points. -/
theorem Normal.unique {xs ys : List Range} (hxs : Normal xs) (hys : Normal ys)
    (h : ∀ cp, Has xs cp ↔ Has ys cp) : xs = ys := by
  induction xs generalizing ys with
  | nil =>
    cases ys with
    | nil => rfl
    | cons s more =>
      have hs := (normal_cons.mp hys).1.1
      exact absurd ((h s.1).mpr (has_cons.mpr (.inl ⟨le_rfl, hs⟩))) not_has_nil
  | cons r rest ih =>
    cases ys with
    | nil =>
      have hr := (normal_cons.mp hxs).1.1
      exact absurd ((h r.1).mp (has_cons.mpr (.inl ⟨le_rfl, hr⟩))) not_has_nil
    | cons s more =>
      obtain ⟨hlow, hhigh⟩ := first_le hxs hys h
      obtain ⟨hlow', hhigh'⟩ := first_le hys hxs fun cp => (h cp).symm
      obtain rfl : r = s := Prod.ext (le_antisymm hlow' hlow) (le_antisymm hhigh hhigh')
      have hrest : ∀ cp, Has rest cp ↔ Has more cp := by
        intro cp
        constructor
        · intro hcp
          have hlt := lt_of_has hxs hcp
          exact (has_cons.mp ((h cp).mp (has_cons.mpr (.inr hcp)))).resolve_left (by omega)
        · intro hcp
          have hlt := lt_of_has hys hcp
          exact (has_cons.mp ((h cp).mpr (has_cons.mpr (.inr hcp)))).resolve_left (by omega)
      rw [ih (normal_cons.mp hxs).2.2 (normal_cons.mp hys).2.2 hrest]

end Unique

variable {set : List Range}

section Normalize

/-- Merging ranges whose low ends are in order keeps their code points. -/
theorem mergeFrom_spec {last : Range} {rest : List Range} (hlast : IsRange last)
    (hrange : ∀ r ∈ rest, IsRange r) (hsorted : (last :: rest).Pairwise fun a b => a.1 ≤ b.1) :
    Normal (mergeFrom last rest) ∧ (∀ r ∈ mergeFrom last rest, last.1 ≤ r.1) ∧
      ∀ cp, Has (mergeFrom last rest) cp ↔ Has (last :: rest) cp := by
  induction rest generalizing last with
  | nil =>
    refine ⟨normal_cons.mpr ⟨hlast, forall_mem_nil _, Normal.nil⟩, ?_, fun cp => Iff.rfl⟩
    intro r hr
    rw [mem_singleton.mp hr]
  | cons r rest ih =>
    obtain ⟨hr, hrange⟩ := forall_mem_cons.mp hrange
    obtain ⟨hfirst, hrest⟩ := pairwise_cons.mp hsorted
    obtain ⟨hle, hlow⟩ := forall_mem_cons.mp hfirst
    unfold mergeFrom
    split_ifs with htouch hlonger
    · -- the last range is lengthened
      obtain ⟨hnormal, hges, hhas⟩ := @ih (last.1, r.2) ⟨le_trans hle hr.1, hr.2⟩ hrange
        (pairwise_cons.mpr ⟨hlow, (pairwise_cons.mp hrest).2⟩)
      refine ⟨hnormal, hges, fun cp => ?_⟩
      rw [hhas, has_cons, has_cons, has_cons]
      dsimp only
      have := hr.1
      constructor
      · rintro (hin | hlater)
        · by_cases hcp : cp ≤ last.2
          · exact .inl ⟨hin.1, hcp⟩
          · exact .inr (.inl ⟨by omega, hin.2⟩)
        · exact .inr (.inr hlater)
      · rintro (hin | hin | hlater)
        · exact .inl ⟨hin.1, by omega⟩
        · exact .inl ⟨le_trans hle hin.1, hin.2⟩
        · exact .inr hlater
    · -- the range is within the last one
      obtain ⟨hnormal, hges, hhas⟩ := ih hlast hrange
        (pairwise_cons.mpr ⟨hlow, (pairwise_cons.mp hrest).2⟩)
      refine ⟨hnormal, hges, fun cp => ?_⟩
      rw [hhas, has_cons, has_cons, has_cons]
      constructor
      · rintro (hin | hlater)
        · exact .inl hin
        · exact .inr (.inr hlater)
      · rintro (hin | hin | hlater)
        · exact .inl hin
        · exact .inl ⟨le_trans hle hin.1, by omega⟩
        · exact .inr hlater
    · obtain ⟨hnormal, hges, hhas⟩ := ih hr hrange hrest
      refine ⟨normal_cons.mpr ⟨hlast, fun s hs => ?_, hnormal⟩, ?_, fun cp => ?_⟩
      · have := hges s hs
        omega
      · intro s hs
        rcases mem_cons.mp hs with rfl | hs
        · exact le_rfl
        · exact le_trans hle (hges s hs)
      · rw [has_cons, hhas, ← has_cons]

theorem normalize_spec (hrange : ∀ r ∈ set, IsRange r) :
    Normal (normalize set) ∧ ∀ cp, Has (normalize set) cp ↔ Has set cp := by
  have hperm := @sortWith_perm _ _ byLow 1 (by decide) () set
  have hordered := @sortWith_ordered _ _ byLow (compareOn Prod.fst) _ (fun _ _ _ => rfl) () set
  unfold normalize
  generalize (sortWith byLow 1 () set).1 = sorted at hperm hordered
  have hsame : ∀ cp, Has sorted cp ↔ Has set cp := fun cp =>
    ⟨fun ⟨r, hr, hin⟩ => ⟨r, hperm.mem_iff.mp hr, hin⟩,
      fun ⟨r, hr, hin⟩ => ⟨r, hperm.mem_iff.mpr hr, hin⟩⟩
  cases sorted with
  | nil => exact ⟨Normal.nil, hsame⟩
  | cons r rest =>
    have hsorted : (r :: rest).Pairwise fun a b => a.1 ≤ b.1 :=
      hordered.imp fun h => not_lt.mp fun hlt => h (Nat.compare_eq_gt.mpr hlt)
    obtain ⟨hr, hrest⟩ := forall_mem_cons.mp fun s hs => hrange s (hperm.mem_iff.mp hs)
    obtain ⟨hnormal, -, hhas⟩ := mergeFrom_spec hr hrest hsorted
    exact ⟨hnormal, fun cp => (hhas cp).trans (hsame cp)⟩

end Normalize

section Complement

theorem complementFrom_spec {next : Nat} (hset : Normal set) (hnext : ∀ r ∈ set, next ≤ r.1) :
    Normal (complementFrom next set) ∧ (∀ r ∈ complementFrom next set, next ≤ r.1) ∧
      ∀ cp, Has (complementFrom next set) cp ↔ next ≤ cp ∧ cp ≤ maxCodePoint ∧ ¬ Has set cp := by
  induction set generalizing next with
  | nil =>
    unfold complementFrom
    split_ifs with hle
    · refine ⟨normal_cons.mpr ⟨⟨hle, le_rfl⟩, forall_mem_nil _, Normal.nil⟩, ?_, ?_⟩
      · intro r hr
        rw [mem_singleton.mp hr]
      · intro cp
        rw [has_cons]
        simp [not_has_nil]
    · refine ⟨Normal.nil, forall_mem_nil _, fun cp => ?_⟩
      simp only [not_has_nil, not_false_eq_true, and_true, false_iff, not_and]
      omega
  | cons r rest ih =>
    obtain ⟨lo, hi⟩ := r
    obtain ⟨⟨hle, hmax⟩, hlater, hrest⟩ := normal_cons.mp hset
    obtain ⟨hnormal, hges, hhas⟩ := @ih (hi + 1) hrest fun s hs => Nat.le_of_lt (hlater s hs)
    have hlow : next ≤ lo := hnext (lo, hi) mem_cons_self
    dsimp only at hle hmax hlater
    have hpast : ∀ cp, Has rest cp → hi + 1 < cp := fun cp => lt_of_has hset
    unfold complementFrom
    split_ifs with hgap
    · refine ⟨normal_cons.mpr ⟨⟨by omega, by omega⟩, ?_, hnormal⟩, ?_, fun cp => ?_⟩
      · intro s hs
        have := hges s hs
        dsimp only
        omega
      · intro s hs
        rcases mem_cons.mp hs with rfl | hs
        · exact le_rfl
        · exact le_trans (by omega) (hges s hs)
      · rw [has_cons, hhas, has_cons]
        have := hpast cp
        by_cases hcp : Has rest cp
        · have := this hcp
          simp only [hcp, or_true, not_true, and_false, or_false, iff_false]
          omega
        · simp only [hcp, or_false, not_false_eq_true, and_true, not_and]
          omega
    · refine ⟨hnormal, fun s hs => le_trans (by omega) (hges s hs), fun cp => ?_⟩
      rw [hhas, has_cons]
      by_cases hcp : Has rest cp
      · simp [hcp]
      · simp only [hcp, or_false, not_false_eq_true, and_true, not_and]
        omega

theorem complement_spec (hset : Normal set) :
    Normal (complement set) ∧ ∀ cp, Has (complement set) cp ↔ cp ≤ maxCodePoint ∧ ¬ Has set cp := by
  obtain ⟨hnormal, -, hhas⟩ := complementFrom_spec hset fun r _ => Nat.zero_le r.1
  refine ⟨hnormal, fun cp => (hhas cp).trans ?_⟩
  simp

theorem complement_complement (hset : Normal set) :
    complement (complement set) = set := by
  obtain ⟨hnormal, hhas⟩ := complement_spec hset
  obtain ⟨hnormal', hhas'⟩ := complement_spec hnormal
  refine hnormal'.unique hset fun cp => ?_
  rw [hhas', hhas]
  constructor
  · rintro ⟨hle, hnot⟩
    exact not_not.mp fun hcp => hnot ⟨hle, hcp⟩
  · intro hcp
    exact ⟨hset.le hcp, fun h => h.2 hcp⟩

end Complement

section Classes

/-- A property as it is named, and its code points: `property_ranges` normalizes the ranges of
what is named, or complements such ones. -/
structure NamedProperty where
  name : String
  ranges : List Range
  normal : Normal ranges

inductive SetKind where
  | digit
  | word
  | space
  | property (p : NamedProperty)

/-- A named set, or what it leaves out. -/
structure NamedSet where
  kind : SetKind
  negated : Bool

inductive ClassItem where
  | range (r : Range) (isRange : IsRange r)
  | named (n : NamedSet)

/-- A class, `[…]` or `[^…]`. -/
structure CharSet where
  negated : Bool
  items : List ClassItem

def word : List Range := [(0x30, 0x39), (0x41, 0x5A), (0x5F, 0x5F), (0x61, 0x7A)]

-- the space separators come from the tables of `core:icu`
variable (spaceSeparator : List Range)

def space : List Range :=
  normalize ([(0x09, 0x0D), (0x20, 0x20), (0x2028, 0x2029), (0xFEFF, 0xFEFF)] ++ spaceSeparator)

def SetKind.positive : SetKind → List Range
  | .digit => [(0x30, 0x39)]
  | .word => Re.word
  | .space => Re.space spaceSeparator
  | .property p => p.ranges

def NamedSet.named (set : NamedSet) : List Range :=
  if set.negated then complement (set.kind.positive spaceSeparator)
  else set.kind.positive spaceSeparator

def ClassItem.ranges : ClassItem → List Range
  | .range r _ => [r]
  | .named n => n.named spaceSeparator

def CharSet.resolve (set : CharSet) : List Range :=
  let merged := normalize (set.items.flatMap (ClassItem.ranges spaceSeparator))
  if set.negated then complement merged else merged

/-- The code points that a kind names. -/
def SetKind.Matches : SetKind → Nat → Prop
  | .digit, cp => '0'.toNat ≤ cp ∧ cp ≤ '9'.toNat
  | .word, cp => '0'.toNat ≤ cp ∧ cp ≤ '9'.toNat ∨ 'A'.toNat ≤ cp ∧ cp ≤ 'Z'.toNat ∨
      cp = '_'.toNat ∨ 'a'.toNat ≤ cp ∧ cp ≤ 'z'.toNat
  | .space, cp => 0x09 ≤ cp ∧ cp ≤ 0x0D ∨ cp = 0x20 ∨ cp = 0x2028 ∨ cp = 0x2029 ∨ cp = 0xFEFF ∨
      Has spaceSeparator cp
  | .property p, cp => Has p.ranges cp

def NamedSet.Matches (set : NamedSet) (cp : Nat) : Prop :=
  if set.negated then cp ≤ maxCodePoint ∧ ¬ set.kind.Matches spaceSeparator cp
  else set.kind.Matches spaceSeparator cp

def ClassItem.Matches : ClassItem → Nat → Prop
  | .range r _, cp => r.1 ≤ cp ∧ cp ≤ r.2
  | .named n, cp => n.Matches spaceSeparator cp

/-- A class matches what one of its items does, or with `^` the other code points. -/
def CharSet.Matches (set : CharSet) (cp : Nat) : Prop :=
  if set.negated then cp ≤ maxCodePoint ∧ ¬ ∃ item ∈ set.items, item.Matches spaceSeparator cp
  else ∃ item ∈ set.items, item.Matches spaceSeparator cp

variable {spaceSeparator} (hspace : ∀ r ∈ spaceSeparator, IsRange r)

include hspace

theorem SetKind.positive_spec (kind : SetKind) : Normal (kind.positive spaceSeparator) ∧
      ∀ cp, Has (kind.positive spaceSeparator) cp ↔ kind.Matches spaceSeparator cp := by
  cases kind with
  | digit =>
    have hnormal : Normal [(0x30, 0x39)] := ⟨by decide, by decide⟩
    refine ⟨hnormal, fun cp => ?_⟩
    simp [SetKind.positive, SetKind.Matches, has_cons, not_has_nil]
  | word =>
    have hnormal : Normal Re.word := ⟨by decide, by decide⟩
    refine ⟨hnormal, fun cp => ?_⟩
    simp only [SetKind.positive, SetKind.Matches, Re.word, has_cons, not_has_nil, or_false]
    have hdigits : '0'.toNat = 0x30 ∧ '9'.toNat = 0x39 := ⟨rfl, rfl⟩
    have hupper : 'A'.toNat = 0x41 ∧ 'Z'.toNat = 0x5A := ⟨rfl, rfl⟩
    have hlower : 'a'.toNat = 0x61 ∧ 'z'.toNat = 0x7A ∧ '_'.toNat = 0x5F := ⟨rfl, rfl, rfl⟩
    omega
  | space =>
    have hrange : ∀ r ∈ [(0x09, 0x0D), (0x20, 0x20), (0x2028, 0x2029), (0xFEFF, 0xFEFF)] ++
        spaceSeparator, IsRange r := forall_mem_append.mpr ⟨by decide, hspace⟩
    obtain ⟨hnormal, hhas⟩ := normalize_spec hrange
    refine ⟨hnormal, fun cp => (hhas cp).trans ?_⟩
    simp only [SetKind.Matches, cons_append, nil_append, has_cons]
    by_cases hcp : Has spaceSeparator cp
    · simp [hcp]
    · simp only [hcp, or_false]
      omega
  | property p => exact ⟨p.normal, fun cp => Iff.rfl⟩

theorem NamedSet.named_spec (set : NamedSet) : Normal (set.named spaceSeparator) ∧
      ∀ cp, Has (set.named spaceSeparator) cp ↔ set.Matches spaceSeparator cp := by
  obtain ⟨hnormal, hhas⟩ := set.kind.positive_spec hspace
  unfold NamedSet.named NamedSet.Matches
  split_ifs
  · obtain ⟨hcomplement, hleft⟩ := complement_spec hnormal
    refine ⟨hcomplement, fun cp => ?_⟩
    rw [hleft, hhas]
  · exact ⟨hnormal, hhas⟩

theorem CharSet.resolve_spec (set : CharSet) : Normal (set.resolve spaceSeparator) ∧
      ∀ cp, Has (set.resolve spaceSeparator) cp ↔ set.Matches spaceSeparator cp := by
  have hitem : ∀ item : ClassItem, (∀ r ∈ item.ranges spaceSeparator, IsRange r) ∧
      ∀ cp, Has (item.ranges spaceSeparator) cp ↔ item.Matches spaceSeparator cp := by
    intro item
    cases item with
    | range r isRange =>
      refine ⟨fun s hs => ?_, fun cp => ?_⟩
      · rw [mem_singleton.mp hs]
        exact isRange
      · simp [ClassItem.ranges, ClassItem.Matches, has_cons, not_has_nil]
    | named n =>
      obtain ⟨hnormal, hhas⟩ := n.named_spec hspace
      exact ⟨hnormal.range, hhas⟩
  have hrange : ∀ r ∈ set.items.flatMap (ClassItem.ranges spaceSeparator), IsRange r := by
    intro r hr
    obtain ⟨item, -, hr⟩ := mem_flatMap.mp hr
    exact (hitem item).1 r hr
  obtain ⟨hnormal, hhas⟩ := normalize_spec hrange
  have hunion : ∀ cp, Has (normalize (set.items.flatMap (ClassItem.ranges spaceSeparator))) cp ↔
      ∃ item ∈ set.items, item.Matches spaceSeparator cp := by
    intro cp
    rw [hhas]
    constructor
    · rintro ⟨r, hr, hin⟩
      obtain ⟨item, hmem, hr⟩ := mem_flatMap.mp hr
      exact ⟨item, hmem, ((hitem item).2 cp).mp ⟨r, hr, hin⟩⟩
    · rintro ⟨item, hmem, hmatches⟩
      obtain ⟨r, hr, hin⟩ := ((hitem item).2 cp).mpr hmatches
      exact ⟨r, mem_flatMap.mpr ⟨item, hmem, hr⟩, hin⟩
  unfold CharSet.resolve CharSet.Matches
  dsimp only
  split_ifs
  · obtain ⟨hcomplement, hleft⟩ := complement_spec hnormal
    refine ⟨hcomplement, fun cp => ?_⟩
    rw [hleft, hunion]
  · exact ⟨hnormal, hunion⟩

omit hspace

/-- Normalizing keeps the code points and makes the ranges normal, complementing a normal list
gives the normal one of the others, and a class resolves to the normal list of what it
matches. -/
theorem charSets_exact : (∀ set : List Range, (∀ r ∈ set, IsRange r) →
      Normal (normalize set) ∧ ∀ cp, Has (normalize set) cp ↔ Has set cp) ∧
    (∀ set : List Range, Normal set → Normal (complement set) ∧
        (∀ cp, Has (complement set) cp ↔ cp ≤ maxCodePoint ∧ ¬ Has set cp) ∧
        complement (complement set) = set) ∧
    (∀ spaceSeparator : List Range, (∀ r ∈ spaceSeparator, IsRange r) → ∀ set : CharSet,
      Normal (set.resolve spaceSeparator) ∧
        ∀ cp, Has (set.resolve spaceSeparator) cp ↔ set.Matches spaceSeparator cp) := by
  refine ⟨fun set => normalize_spec, ?_, ?_⟩
  · intro set hset
    obtain ⟨hnormal, hhas⟩ := complement_spec hset
    exact ⟨hnormal, hhas, complement_complement hset⟩
  · intro spaceSeparator hspace set
    exact set.resolve_spec hspace

/-- The digits that are no word characters, `[^\D\w]`. -/
def neither : CharSet := ⟨true, [.named ⟨.digit, true⟩, .named ⟨.word, false⟩]⟩

theorem charSets_exact_neither : Has (normalize [(98, 99), (97, 97), (99, 120)]) 100 ∧
      complement (complement [(0, 64), (91, maxCodePoint)]) = [(0, 64), (91, maxCodePoint)] ∧
      ¬ Has (neither.resolve [(0x20, 0x20)]) 48 := by
  have hnormalize := (charSets_exact.1 [(98, 99), (97, 97), (99, 120)] (by decide)).2 100
  have hcomplement := charSets_exact.2.1 [(0, 64), (91, maxCodePoint)] ⟨by decide, by decide⟩
  have hresolve := (charSets_exact.2.2 [(0x20, 0x20)] (by decide) neither).2 48
  refine ⟨hnormalize.mpr ⟨(99, 120), by decide, by decide⟩, hcomplement.2.2, ?_⟩
  intro hhas
  have hword : (ClassItem.named ⟨.word, false⟩).Matches [(0x20, 0x20)] 48 :=
    .inl ⟨by decide, by decide⟩
  exact (hresolve.mp hhas).2 ⟨_, List.mem_cons_of_mem _ List.mem_cons_self, hword⟩

end Classes

end Wado.Re
