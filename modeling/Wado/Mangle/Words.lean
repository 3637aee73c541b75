/-
The words of a mangled name, and why a word and what goes on after it are settled by the
text.
-/
import Wado.Mangle.Names
import Wado.UniqueSplit

namespace Wado.Mangle

open UniqueSplit List

/-- What a spelling puts between words. -/
def separators : Text :=
  ['&', ',', '(', ')', '[', ']', '<', '>', '#', '\x7b', '\x7d']

def Plain (c : Char) : Prop :=
  c ∉ separators

instance : DecidablePred Plain := fun c => inferInstanceAs (Decidable (c ∉ separators))

theorem plain_of_all {text : Text} (h : text.all (fun c => decide (Plain c)) = true) :
    ∀ c ∈ text, Plain c := by
  intro c hc
  exact of_decide_eq_true (all_eq_true.mp h c hc)

/-- What a word is qualified with. -/
def Mark (c : Char) : Prop :=
  c = '/' ∨ c = ':'

instance : DecidablePred Mark := fun c => inferInstanceAs (Decidable (c = '/' ∨ c = ':'))

/-- A name no separator, mark or blank stands in. -/
structure Atom (x : Text) : Prop where
  nonempty : x ≠ []
  plain : ∀ c ∈ x, Plain c
  unmarked : ∀ c ∈ x, ¬ Mark c
  unspaced : ∀ c ∈ x, c ≠ ' '

/-- A module's rendering that no reference and no separator can be read into. -/
structure ModuleText (m : Text) : Prop where
  plain : ∀ c ∈ m, Plain c
  notMut : ¬ ['m', 'u', 't', ' '] <+: m

def isIdentStart (c : Char) : Bool :=
  c.isAlpha || c == '_'

def isIdentContinue (c : Char) : Bool :=
  c.isAlphanum || c == '_'

/-- Whether a text is an identifier of the language, which `_` alone is not. -/
def isValidIdent (x : Text) : Bool :=
  match x with
  | [] => false
  | c :: rest => x != ['_'] && isIdentStart c && (c :: rest).all isIdentContinue

/-- No separator, mark or blank is a character of an identifier. -/
theorem not_isIdentContinue : ∀ c ∈ '/' :: ':' :: ' ' :: separators, isIdentContinue c = false := by
  intro c hc
  have hall : ('/' :: ':' :: ' ' :: separators).all (fun c => !isIdentContinue c) = true := by
    decide
  simpa using all_eq_true.mp hall c hc

theorem atom_of_isIdentContinue {x : Text} (hne : x ≠ [])
    (h : ∀ c ∈ x, isIdentContinue c = true) : Atom x := by
  have hout : ∀ c ∈ x, c ∉ '/' :: ':' :: ' ' :: separators := by
    intro c hc hin
    have htrue := h c hc
    rw [not_isIdentContinue c hin] at htrue
    cases htrue
  refine ⟨hne, ?_, ?_, ?_⟩
  · intro c hc hin
    exact hout c hc (by simp [hin])
  · rintro c hc (rfl | rfl)
    · exact hout _ hc (by simp)
    · exact hout _ hc (by simp)
  · rintro c hc rfl
    exact hout _ hc (by simp)

theorem isIdentContinue_of_isValidIdent {x : Text} (h : isValidIdent x = true) :
    x ≠ [] ∧ ∀ c ∈ x, isIdentContinue c = true := by
  cases x with
  | nil => cases h
  | cons c rest =>
    simp only [isValidIdent, Bool.and_eq_true, all_eq_true] at h
    exact ⟨cons_ne_nil _ _, h.2⟩

theorem atom_of_isValidIdent {x : Text} (h : isValidIdent x = true) : Atom x :=
  atom_of_isIdentContinue (isIdentContinue_of_isValidIdent h).1
    (isIdentContinue_of_isValidIdent h).2

theorem decimal_ne_nil (n : Nat) : decimal n ≠ [] :=
  Nat.toDigits_ne_nil

theorem isIdentContinue_of_mem_decimal {n : Nat} {c : Char} (h : c ∈ decimal n) :
    isIdentContinue c = true := by
  have hdigit : c.isDigit = true := Nat.isDigit_of_mem_toDigits (by decide) (by decide) h
  simp [isIdentContinue, Char.isAlphanum, hdigit]

theorem decimal_injective {m n : Nat} (h : decimal m = decimal n) : m = n := by
  have hread := congrArg (fun digits => Nat.ofDigitChars 10 digits 0) h
  simp only [decimal] at hread
  rwa [Nat.ofDigitChars_toDigits (by decide) (by decide),
    Nat.ofDigitChars_toDigits (by decide) (by decide)] at hread

theorem atom_decimal (n : Nat) : Atom (decimal n) :=
  atom_of_isIdentContinue (decimal_ne_nil n) fun _ h => isIdentContinue_of_mem_decimal h

/-- A word: a name alone, a name behind its module, or an associated type behind its
trait's number. -/
inductive Word where
  | bare (name : Text)
  | qualified (module name : Text)
  | family (module number assoc : Text)

variable {w : Word} {w w' : Word}

namespace Word

def text : Word → Text
  | bare name => name
  | qualified module name => module ++ '/' :: name
  | family module number assoc => module ++ '/' :: (number ++ ':' :: ':' :: assoc)

def Readable : Word → Prop
  | bare name => Atom name
  | qualified module name => ModuleText module ∧ Atom name
  | family module number assoc => ModuleText module ∧ Atom number ∧ Atom assoc

def isFamily : Word → Bool
  | family .. => true
  | _ => false

theorem plain (h : w.Readable) : ∀ c ∈ w.text, Plain c := by
  have hslash : Plain '/' := by decide
  have hcolon : Plain ':' := by decide
  cases w with
  | bare name => exact Atom.plain h
  | qualified module name =>
    intro c hc
    rcases mem_append.mp hc with hc | hc
    · exact h.1.plain c hc
    · rcases mem_cons.mp hc with rfl | hc
      · exact hslash
      · exact h.2.plain c hc
  | family module number assoc =>
    intro c hc
    rcases mem_append.mp hc with hc | hc
    · exact h.1.plain c hc
    · rcases mem_cons.mp hc with rfl | hc
      · exact hslash
      rcases mem_append.mp hc with hc | hc
      · exact h.2.1.plain c hc
      rcases mem_cons.mp hc with rfl | hc
      · exact hcolon
      rcases mem_cons.mp hc with rfl | hc
      · exact hcolon
      · exact h.2.2.plain c hc

theorem slash_mem_text (h : ∀ name, w ≠ bare name) : '/' ∈ w.text := by
  cases w with
  | bare name => exact absurd rfl (h name)
  | qualified module name => simp [text]
  | family module number assoc => simp [text]

/-- The text of a family ends in a name behind a colon. -/
theorem family_text (module number assoc : Text) :
    (family module number assoc).text = (module ++ '/' :: (number ++ [':'])) ++ ':' :: assoc := by
  simp [text]

theorem ext (hw : w.Readable) (hw' : w'.Readable) (h : w.text = w'.text) :
    w = w' := by
  have hslash : Mark '/' := Or.inl rfl
  have hcolon : Mark ':' := Or.inr rfl
  have hbare : ∀ name, Atom name → '/' ∉ name := by
    intro name hname hin
    exact hname.unmarked _ hin hslash
  cases w with
  | bare name =>
    cases w' with
    | bare name' => exact congrArg bare h
    | qualified module' name' =>
      have hin := slash_mem_text (w := qualified module' name') (by intro _ hfalse; cases hfalse)
      rw [← h] at hin
      exact absurd hin (hbare name hw)
    | family module' number' assoc' =>
      have hin := slash_mem_text (w := family module' number' assoc')
        (by intro _ hfalse; cases hfalse)
      rw [← h] at hin
      exact absurd hin (hbare name hw)
  | qualified module name =>
    cases w' with
    | bare name' =>
      have hin := slash_mem_text (w := qualified module name) (by intro _ hfalse; cases hfalse)
      rw [h] at hin
      exact absurd hin (hbare name' hw')
    | qualified module' name' =>
      obtain ⟨rfl, -, rfl⟩ := last_mark_split hw.2.unmarked hw'.2.unmarked hslash hslash h
      rfl
    | family module' number' assoc' =>
      rw [family_text] at h
      obtain ⟨-, hmark, -⟩ := last_mark_split hw.2.unmarked hw'.2.2.unmarked hslash hcolon h
      exact absurd hmark (by decide)
  | family module number assoc =>
    cases w' with
    | bare name' =>
      have hin := slash_mem_text (w := family module number assoc)
        (by intro _ hfalse; cases hfalse)
      rw [h] at hin
      exact absurd hin (hbare name' hw')
    | qualified module' name' =>
      rw [family_text] at h
      obtain ⟨-, hmark, -⟩ := last_mark_split hw.2.2.unmarked hw'.2.unmarked hcolon hslash h
      exact absurd hmark (by decide)
    | family module' number' assoc' =>
      rw [family_text, family_text] at h
      obtain ⟨hbefore, -, rfl⟩ :=
        last_mark_split hw.2.2.unmarked hw'.2.2.unmarked hcolon hcolon h
      have hnumbers : module ++ '/' :: number = module' ++ '/' :: number' := by
        have hsame : (module ++ '/' :: number) ++ [':'] =
            (module' ++ '/' :: number') ++ [':'] := by simpa using hbefore
        exact append_cancel_right hsame
      obtain ⟨rfl, -, rfl⟩ :=
        last_mark_split hw.2.1.unmarked hw'.2.1.unmarked hslash hslash hnumbers
      rfl

end Word

/-- A text that ends what stands in a list or between brackets. -/
def Closes (text : Text) : Prop :=
  text = [] ∨ ∃ c rest, text = c :: rest ∧ c ∈ [',', ')', ']', '>']

def withText : Text :=
  ['w', 'i', 't', 'h']

/-- What may go on after a whole spelling: the end of what it stands in, a function type's
clause, or the associated type it is projected to.  The first text is what runs on with
the word before. -/
inductive Follow : Text → Text → Prop where
  | closes {rest} (h : Closes rest) : Follow [] rest
  | clause (rest) : Follow withText ('(' :: rest)
  | member {assoc} (h : Atom assoc) (rest) : Follow (':' :: ':' :: assoc) ('#' :: rest)

def Follows (text : Text) : Prop :=
  ∃ run rest, text = run ++ rest ∧ Follow run rest

/-- What may go on after a word: what follows a whole spelling, an opening bracket, or the
owner or the mark of a bucket. -/
inductive Goes (w : Word) : Text → Text → Prop where
  | follow {run rest} (h : Follow run rest) : Goes w run rest
  | opens {c} (h : c ∈ ['<', '[', '\x7b']) (rest) : Goes w [] (c :: rest)
  | owner (h : w.isFamily = false) (rest) : Goes w [] ('#' :: rest)

variable {run rest : Text}

theorem Follow.plain (h : Follow run rest) : ∀ c ∈ run, Plain c := by
  cases h with
  | closes h =>
    intro c hc
    cases hc
  | clause => exact plain_of_all (by decide)
  | member h =>
    intro c hc
    rcases mem_cons.mp hc with rfl | hc
    · decide
    rcases mem_cons.mp hc with rfl | hc
    · decide
    · exact h.plain c hc

theorem Follow.leaves (h : Follow run rest) : Leaves Plain rest := by
  cases h with
  | closes h =>
    rcases h with rfl | ⟨c, rest, rfl, hc⟩
    · exact leaves_nil _
    · rw [leaves_cons]
      intro hplain
      apply hplain
      simp only [mem_cons, not_mem_nil, or_false] at hc
      rcases hc with rfl | rfl | rfl | rfl <;> decide
  | clause => exact leaves_cons.mpr (by decide)
  | member => exact leaves_cons.mpr (by decide)

theorem Goes.plain (h : Goes w run rest) : ∀ c ∈ run, Plain c := by
  cases h with
  | follow h => exact h.plain
  | opens => simp
  | owner => simp

theorem Goes.leaves (h : Goes w run rest) : Leaves Plain rest := by
  cases h with
  | follow h => exact h.leaves
  | opens h =>
    rw [leaves_cons]
    intro hplain
    apply hplain
    simp only [mem_cons, not_mem_nil, or_false] at h
    rcases h with rfl | rfl | rfl <;> decide
  | owner => exact leaves_cons.mpr (by decide)

theorem Closes.head {c : Char} {rest : Text} (h : Closes (c :: rest)) :
    c ∈ [',', ')', ']', '>'] := by
  rcases h with h | ⟨d, rest', heq, hd⟩
  · cases h
  · cases heq
    exact hd

/-- A word before an associated type is no word of its own but a family. -/
theorem Word.text_ne_member {assoc : Text} (hw : w.Readable) (hassoc : Atom assoc)
    (hfamily : w.isFamily = false) : w.text ≠ w'.text ++ ':' :: ':' :: assoc := by
  intro h
  have hsplit : w.text = (w'.text ++ [':']) ++ ':' :: assoc := by simpa using h
  cases w with
  | bare name =>
    apply hw.unmarked ':' _ (Or.inr rfl)
    have hin : ':' ∈ (bare name).text := by
      rw [h]
      simp
    exact hin
  | qualified module name =>
    obtain ⟨-, hmark, -⟩ := last_mark_split hw.2.unmarked hassoc.unmarked (Or.inl rfl)
      (Or.inr rfl) hsplit
    exact absurd hmark (by decide)
  | family module number name => cases hfamily

theorem Word.text_member {assoc assoc' : Text} (hassoc : Atom assoc) (hassoc' : Atom assoc')
    (h : w.text ++ ':' :: ':' :: assoc = w'.text ++ ':' :: ':' :: assoc') :
    w.text = w'.text ∧ assoc = assoc' := by
  have hsplit : (w.text ++ [':']) ++ ':' :: assoc = (w'.text ++ [':']) ++ ':' :: assoc' := by
    simpa using h
  have hcolon : Mark ':' := Or.inr rfl
  obtain ⟨hbefore, -, rfl⟩ := last_mark_split hassoc.unmarked hassoc'.unmarked hcolon hcolon hsplit
  exact ⟨append_cancel_right hbefore, rfl⟩

/-- A word, and what goes on after it, is settled by the text. -/
theorem Word.split {w w' : Word} {run rest run' rest' : Text} (hw : w.Readable)
    (hw' : w'.Readable) (hgoes : Goes w run rest) (hgoes' : Goes w' run' rest')
    (h : w.text ++ (run ++ rest) = w'.text ++ (run' ++ rest')) :
    w = w' ∧ run ++ rest = run' ++ rest' := by
  have hplain : ∀ {w : Word} {run rest : Text}, w.Readable → Goes w run rest →
      ∀ c ∈ w.text ++ run, Plain c := by
    intro w run rest hw hgoes c hc
    rcases mem_append.mp hc with hc | hc
    · exact Word.plain hw c hc
    · exact hgoes.plain c hc
  rw [← append_assoc, ← append_assoc] at h
  obtain ⟨hruns, rfl⟩ := run_split Plain (hplain hw hgoes) (hplain hw' hgoes') hgoes.leaves
    hgoes'.leaves h
  have hsame : ∀ {tail : Text}, w.text ++ tail = w'.text ++ tail → w = w' := by
    intro tail htail
    exact Word.ext hw hw' (append_cancel_right htail)
  cases hgoes with
  | follow hfollow =>
    cases hfollow with
    | closes hcloses =>
      have hrun' : run' = [] := by
        cases hgoes' with
        | follow hfollow' =>
          cases hfollow' with
          | closes => rfl
          | clause => exact absurd hcloses.head (by decide)
          | member => exact absurd hcloses.head (by decide)
        | opens => rfl
        | owner => rfl
      subst hrun'
      exact ⟨hsame hruns, rfl⟩
    | clause =>
      have hrun' : run' = withText := by
        cases hgoes' with
        | follow hfollow' =>
          cases hfollow' with
          | closes hcloses => exact absurd hcloses.head (by decide)
          | clause => rfl
        | opens hopens => exact absurd hopens (by decide)
      subst hrun'
      exact ⟨hsame hruns, rfl⟩
    | member hassoc =>
      cases hgoes' with
      | follow hfollow' =>
        cases hfollow' with
        | closes hcloses => exact absurd hcloses.head (by decide)
        | member hassoc' =>
          obtain ⟨htexts, rfl⟩ := Word.text_member hassoc hassoc' hruns
          exact ⟨Word.ext hw hw' htexts, rfl⟩
      | opens hopens => exact absurd hopens (by decide)
      | owner hfamily =>
        rw [append_nil] at hruns
        exact absurd hruns.symm (Word.text_ne_member hw' hassoc hfamily)
  | opens hopens =>
    have hrun' : run' = [] := by
      cases hgoes' with
      | follow hfollow' =>
        cases hfollow' with
        | closes => rfl
        | clause => exact absurd hopens (by decide)
        | member => exact absurd hopens (by decide)
      | opens => rfl
      | owner => rfl
    subst hrun'
    exact ⟨hsame hruns, rfl⟩
  | owner hfamily =>
    cases hgoes' with
    | follow hfollow' =>
      cases hfollow' with
      | closes hcloses => exact absurd hcloses.head (by decide)
      | member hassoc =>
        rw [append_nil] at hruns
        exact absurd hruns (Word.text_ne_member hw hassoc hfamily)
    | opens hopens => exact absurd hopens (by decide)
    | owner => exact ⟨hsame hruns, rfl⟩

end Wado.Mangle
