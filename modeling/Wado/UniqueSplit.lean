/-
Texts that can be taken apart in one way only: a run before the first separator, a word
after the last mark, a list between commas, and a body between its own braces.
-/
import Mathlib.Data.List.Basic
import Mathlib.Tactic.Common

namespace Wado.UniqueSplit

open List

variable {α β γ : Type}

/-- `text` is empty or opens with a character outside `inside`. -/
def Leaves (inside : α → Prop) (text : List α) : Prop :=
  ∀ c rest, text = c :: rest → ¬ inside c

theorem leaves_nil (inside : α → Prop) : Leaves inside [] := by
  intro c rest h
  cases h

theorem leaves_cons {inside : α → Prop} {c : α} {rest : List α} :
    Leaves inside (c :: rest) ↔ ¬ inside c := by
  constructor
  · intro h
    exact h c rest rfl
  · intro h d tail heq
    cases heq
    exact h

/-- A run of inside characters ends at the first character outside. -/
theorem run_split (inside : α → Prop) : ∀ {run run' rest rest' : List α},
    (∀ c ∈ run, inside c) → (∀ c ∈ run', inside c) → Leaves inside rest → Leaves inside rest' →
    run ++ rest = run' ++ rest' → run = run' ∧ rest = rest'
  | [], [], _, _, _, _, _, _, h => ⟨rfl, h⟩
  | [], d :: run', rest, rest', _, hrun', hrest, _, h => by
    exact absurd (hrun' d (mem_cons_self ..)) (hrest d (run' ++ rest') h)
  | c :: run, [], rest, rest', hrun, _, _, hrest', h => by
    exact absurd (hrun c (mem_cons_self ..)) (hrest' c (run ++ rest) h.symm)
  | c :: run, d :: run', rest, rest', hrun, hrun', hrest, hrest', h => by
    obtain ⟨rfl, htail⟩ := List.cons.inj h
    obtain ⟨rfl, hrests⟩ := run_split inside (fun x hx => hrun x (mem_cons_of_mem _ hx))
      (fun x hx => hrun' x (mem_cons_of_mem _ hx)) hrest hrest' htail
    exact ⟨rfl, hrests⟩

/-- What follows the last mark is settled by the text. -/
theorem last_mark_split {mark : α → Prop} {before before' word word' : List α} {c d : α}
    (hword : ∀ x ∈ word, ¬ mark x) (hword' : ∀ x ∈ word', ¬ mark x) (hc : mark c) (hd : mark d)
    (h : before ++ c :: word = before' ++ d :: word') :
    before = before' ∧ c = d ∧ word = word' := by
  have hreverse : word.reverse ++ c :: before.reverse = word'.reverse ++ d :: before'.reverse := by
    have := congrArg List.reverse h
    simpa [reverse_append] using this
  obtain ⟨hwords, hrests⟩ := run_split (fun x => ¬ mark x)
    (fun x hx => hword x (mem_reverse.mp hx))
    (fun x hx => hword' x (mem_reverse.mp hx))
    (leaves_cons.mpr (not_not_intro hc)) (leaves_cons.mpr (not_not_intro hd)) hreverse
  obtain ⟨hmark, hbefore⟩ := List.cons.inj hrests
  exact ⟨reverse_injective hbefore, hmark, reverse_injective hwords⟩

section Listed

variable (f : β → List α) (g : β → γ) (sep close : α)

/-- The elements after the first of a list between separators. -/
def others (items : List β) : List α :=
  items.flatMap fun item => sep :: f item

theorem others_cons (item : β) (items : List β) :
    others f sep (item :: items) = sep :: (f item ++ others f sep items) := by
  simp [others]

theorem intercalate_map_cons (item : β) : ∀ items : List β,
    [sep].intercalate ((item :: items).map f) = f item ++ others f sep items
  | [] => by simp [others, List.intercalate]
  | next :: items => by
    have htail := intercalate_map_cons next items
    rw [others_cons, ← htail]
    simp [List.intercalate]

theorem others_opens (items : List β) (rest : List α) :
    ∃ c tail, others f sep items ++ close :: rest = c :: tail ∧ (c = sep ∨ c = close) := by
  cases items with
  | nil => exact ⟨close, rest, rfl, Or.inr rfl⟩
  | cons item items =>
    rw [others_cons]
    exact ⟨sep, _, rfl, Or.inl rfl⟩

/-- An element is told from another by a text that goes on with a separator or the end. -/
def Told (a b : β) : Prop :=
  ∀ c d rest rest', (c = sep ∨ c = close) → (d = sep ∨ d = close) →
    f a ++ c :: rest = f b ++ d :: rest' → g a = g b ∧ c :: rest = d :: rest'

variable {f g sep close}

theorem others_split (hne : sep ≠ close) : ∀ {as bs : List β} {rest rest' : List α},
    (∀ a ∈ as, ∀ b ∈ bs, Told f g sep close a b) →
    others f sep as ++ close :: rest = others f sep bs ++ close :: rest' →
    as.map g = bs.map g ∧ rest = rest'
  | [], [], _, _, _, h => ⟨rfl, (List.cons.inj h).2⟩
  | [], b :: bs, rest, rest', _, h => by
    rw [others_cons] at h
    exact absurd (List.cons.inj h).1.symm hne
  | a :: as, [], rest, rest', _, h => by
    rw [others_cons] at h
    exact absurd (List.cons.inj h).1 hne
  | a :: as, b :: bs, rest, rest', htold, h => by
    rw [others_cons, others_cons, cons_append, cons_append, append_assoc,
      append_assoc] at h
    obtain ⟨-, htail⟩ := List.cons.inj h
    obtain ⟨c, more, hmore, hc⟩ := others_opens f sep close as rest
    obtain ⟨d, more', hmore', hd⟩ := others_opens f sep close bs rest'
    rw [hmore, hmore'] at htail
    obtain ⟨hab, hrests⟩ :=
      htold a (mem_cons_self ..) b (mem_cons_self ..) c d more more' hc hd htail
    rw [← hmore, ← hmore'] at hrests
    obtain ⟨hmaps, hrest⟩ := others_split hne
      (fun x hx y hy => htold x (mem_cons_of_mem _ hx) y (mem_cons_of_mem _ hy)) hrests
    exact ⟨by rw [map_cons, map_cons, hab, hmaps], hrest⟩

/-- A list between separators, closed by a character no element opens with. -/
theorem listed_split (hne : sep ≠ close) {as bs : List β} {rest rest' : List α}
    (hopens : ∀ item, item ∈ as ∨ item ∈ bs → ∃ c tail, f item = c :: tail ∧ c ≠ close)
    (htold : ∀ a ∈ as, ∀ b ∈ bs, Told f g sep close a b)
    (h : [sep].intercalate (as.map f) ++ close :: rest =
      [sep].intercalate (bs.map f) ++ close :: rest') :
    as.map g = bs.map g ∧ rest = rest' := by
  cases as with
  | nil =>
    cases bs with
    | nil => exact ⟨rfl, (List.cons.inj h).2⟩
    | cons b bs =>
      obtain ⟨c, tail, hb, hc⟩ := hopens b (Or.inr (mem_cons_self ..))
      rw [intercalate_map_cons, hb] at h
      exact absurd (List.cons.inj h).1.symm hc
  | cons a as =>
    cases bs with
    | nil =>
      obtain ⟨c, tail, ha, hc⟩ := hopens a (Or.inl (mem_cons_self ..))
      rw [intercalate_map_cons, ha] at h
      exact absurd (List.cons.inj h).1 hc
    | cons b bs =>
      apply others_split hne htold
      rw [intercalate_map_cons, intercalate_map_cons] at h
      rw [others_cons, others_cons, cons_append, cons_append, h]

end Listed

section Nested

variable [DecidableEq α] (opening closing : α)

/-- How deep a text nested `depth` deep ends, when no closing character is one too many. -/
def nest : List α → Nat → Option Nat
  | [], depth => some depth
  | c :: rest, depth =>
    if c = opening then nest rest (depth + 1)
    else if c = closing then (if depth = 0 then none else nest rest (depth - 1))
    else nest rest depth

/-- Every opening character has its closing one in the text. -/
def Balanced (body : List α) : Prop :=
  nest opening closing body 0 = some 0

variable {opening closing}

theorem nest_split (hne : opening ≠ closing) : ∀ {body body' rest rest' : List α} {depth : Nat},
    nest opening closing body depth = some 0 → nest opening closing body' depth = some 0 →
    body ++ closing :: rest = body' ++ closing :: rest' → body = body' ∧ rest = rest'
  | [], [], _, _, _, _, _, h => ⟨rfl, (List.cons.inj h).2⟩
  | [], c :: body', rest, rest', depth, hbody, hbody', h => by
    obtain ⟨rfl, -⟩ := List.cons.inj h
    cases hbody
    simp [nest, Ne.symm hne] at hbody'
  | c :: body, [], rest, rest', depth, hbody, hbody', h => by
    obtain ⟨rfl, -⟩ := List.cons.inj h
    cases hbody'
    simp [nest, Ne.symm hne] at hbody
  | c :: body, d :: body', rest, rest', depth, hbody, hbody', h => by
    obtain ⟨rfl, htail⟩ := List.cons.inj h
    rw [nest] at hbody hbody'
    by_cases hopen : c = opening
    · rw [if_pos hopen] at hbody hbody'
      obtain ⟨rfl, hrests⟩ := nest_split hne hbody hbody' htail
      exact ⟨rfl, hrests⟩
    · rw [if_neg hopen] at hbody hbody'
      by_cases hclose : c = closing
      · rw [if_pos hclose] at hbody hbody'
        by_cases hzero : depth = 0
        · rw [if_pos hzero] at hbody
          cases hbody
        · rw [if_neg hzero] at hbody hbody'
          obtain ⟨rfl, hrests⟩ := nest_split hne hbody hbody' htail
          exact ⟨rfl, hrests⟩
      · rw [if_neg hclose] at hbody hbody'
        obtain ⟨rfl, hrests⟩ := nest_split hne hbody hbody' htail
        exact ⟨rfl, hrests⟩

/-- A balanced body ends at its own closing character. -/
theorem balanced_split (hne : opening ≠ closing) {body body' rest rest' : List α}
    (hbody : Balanced opening closing body) (hbody' : Balanced opening closing body')
    (h : body ++ closing :: rest = body' ++ closing :: rest') : body = body' ∧ rest = rest' :=
  nest_split hne hbody hbody' h

end Nested

end Wado.UniqueSplit
