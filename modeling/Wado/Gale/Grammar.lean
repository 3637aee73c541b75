/-
Grammars of parser rules, and the token strings that their elements derive.
-/
import Mathlib

namespace Wado

namespace Gale

open Computability

inductive RepeatKind
  | star
  | plus
  | optional
deriving DecidableEq, Repr

mutual

/-- A single unit of an alternative. -/
inductive Element
  | ruleRef (name : String) (argAction : Option String)
  | tokenRef (name : String) (kindId : Int)
  | literal (constName : String) (kindId : Int)
  | group (alternatives : List Alternative)
  | repeated (kind : RepeatKind) (element : Element)
  | label (name : String) (element : Element)
  | wildcard
  | complement (element : Element)

inductive Alternative
  | mk (elements : List Element) (actions : List String)

end

def Alternative.elements : Alternative → List Element
  | .mk elements _ => elements

def Alternative.actions : Alternative → List String
  | .mk _ actions => actions

/-- The alternative of the elements, without a label or an action. -/
def Alternative.new (elements : List Element) : Alternative := .mk elements []

structure ParserRule where
  name : String
  alternatives : List Alternative

/-- The rules, and the ids that the table of token kinds gives the names of kinds. -/
structure GrammarAnalysis where
  parserRules : List ParserRule
  intern : String → Int

namespace GrammarAnalysis

/-- The index of rules keeps the last one of a name. -/
def findRule (g : GrammarAnalysis) (name : String) : Option ParserRule :=
  g.parserRules.reverse.find? fun rule => rule.name = name

/-- The kind of a terminal: the one it was resolved to, or else its name's. -/
def terminalKind (g : GrammarAnalysis) : Element → Option Int
  | .tokenRef name kindId => some (if 0 ≤ kindId then kindId else g.intern ("TK_" ++ name))
  | .literal constName kindId => some (if 0 ≤ kindId then kindId else g.intern constName)
  | _ => none

end GrammarAnalysis

section Languages

variable (g : GrammarAnalysis) (single : Element → Int → Prop) (below : String → Language Int)

mutual

/-- The token strings that an element derives, where `below` are those of the rules and `single`
the kinds that a wildcard or a complement takes. -/
def Element.lang : Element → Language Int
  | .ruleRef name _ => below name
  | .tokenRef name kindId => {w | ∃ kind ∈ g.terminalKind (.tokenRef name kindId), w = [kind]}
  | .literal constName kindId =>
    {w | ∃ kind ∈ g.terminalKind (.literal constName kindId), w = [kind]}
  | .group alternatives => altsLang alternatives
  | .repeated .star element => element.lang∗
  | .repeated .plus element => element.lang * element.lang∗
  | .repeated .optional element => 1 + element.lang
  | .label _ element => element.lang
  | .wildcard => {w | ∃ kind, single .wildcard kind ∧ w = [kind]}
  | .complement element => {w | ∃ kind, single (.complement element) kind ∧ w = [kind]}

def Alternative.lang : Alternative → Language Int
  | .mk elements _ => seqLang elements

def seqLang : List Element → Language Int
  | [] => 1
  | e :: rest => e.lang * seqLang rest

def altsLang : List Alternative → Language Int
  | [] => 0
  | a :: rest => a.lang + altsLang rest

end

end Languages

section Rules

variable (g : GrammarAnalysis) (single : Element → Int → Prop)

/-- What a rule derives where rules nest at most so deep. -/
def ruleLang : Nat → String → Language Int
  | 0, _ => 0
  | n + 1, name =>
    match g.findRule name with
    | none => 0
    | some rule => altsLang g single (ruleLang n) rule.alternatives

/-- What a rule derives. -/
def GrammarAnalysis.language (name : String) : Language Int := ⨆ n, ruleLang g single n name

/-- What an alternative derives. -/
def Alternative.language (a : Alternative) : Language Int := a.lang g single (g.language single)

end Rules

section Facts

variable {g : GrammarAnalysis} {single : Element → Int → Prop}

variable {below : String → Language Int} {alternatives : List Alternative}

theorem mem_altsLang {w : List Int} :
    w ∈ altsLang g single below alternatives ↔ ∃ a ∈ alternatives, w ∈ a.lang g single below := by
  induction alternatives with
  | nil => simp [altsLang, Language.notMem_zero]
  | cons a rest ih =>
    rw [altsLang, Language.mem_add, ih]
    simp

theorem le_altsLang {a : Alternative} (ha : a ∈ alternatives) :
    a.lang g single below ≤ altsLang g single below alternatives :=
  fun _ hw => mem_altsLang.mpr ⟨a, ha, hw⟩

theorem altsLang_le {bound : Language Int} (h : ∀ a ∈ alternatives, a.lang g single below ≤ bound) :
    altsLang g single below alternatives ≤ bound := by
  intro w hw
  obtain ⟨a, ha, hin⟩ := mem_altsLang.mp hw
  exact h a ha hin

theorem lang_eq_seqLang (below : String → Language Int) (a : Alternative) :
    a.lang g single below = seqLang g single below a.elements := by
  cases a
  simp [Alternative.lang, Alternative.elements]

theorem lang_new (below : String → Language Int) (e : Element) :
    (Alternative.new [e]).lang g single below = e.lang g single below := by
  simp [Alternative.new, Alternative.lang, seqLang]

section Mono

variable {below below' : String → Language Int} (h : ∀ name, below name ≤ below' name)
include h

mutual

theorem Element.lang_mono (e : Element) : e.lang g single below ≤ e.lang g single below' := by
  cases e with
  | ruleRef name arg => simpa only [Element.lang] using h name
  | tokenRef name kindId => intro w hw; simpa only [Element.lang] using hw
  | literal constName kindId => intro w hw; simpa only [Element.lang] using hw
  | group alternatives => simpa only [Element.lang] using altsLang_mono alternatives
  | repeated kind element =>
    have hle := Element.lang_mono element
    cases kind with
    | star => simpa only [Element.lang] using kstar_mono hle
    | plus => simpa only [Element.lang] using mul_le_mul' hle (kstar_mono hle)
    | optional => simpa only [Element.lang] using add_le_add (le_refl 1) hle
  | label name element => simpa only [Element.lang] using Element.lang_mono element
  | wildcard => intro w hw; simpa only [Element.lang] using hw
  | complement element => intro w hw; simpa only [Element.lang] using hw

theorem Alternative.lang_mono (a : Alternative) :
    a.lang g single below ≤ a.lang g single below' := by
  cases a with
  | mk elements actions => simpa only [Alternative.lang] using seqLang_mono elements

theorem seqLang_mono (elements : List Element) :
    seqLang g single below elements ≤ seqLang g single below' elements := by
  cases elements with
  | nil => simp only [seqLang, le_refl]
  | cons e rest =>
    simpa only [seqLang] using mul_le_mul' (Element.lang_mono e) (seqLang_mono rest)

theorem altsLang_mono (alternatives : List Alternative) :
    altsLang g single below alternatives ≤ altsLang g single below' alternatives := by
  cases alternatives with
  | nil => simp only [altsLang, le_refl]
  | cons a rest =>
    simpa only [altsLang] using add_le_add (Alternative.lang_mono a) (altsLang_mono rest)

end

end Mono

variable {name : String} {rule : ParserRule}

theorem ruleLang_succ {n : Nat} (h : g.findRule name = some rule) :
    ruleLang g single (n + 1) name = altsLang g single (ruleLang g single n) rule.alternatives := by
  simp [ruleLang, h]

theorem ruleLang_le_succ (n : Nat) (name : String) :
    ruleLang g single n name ≤ ruleLang g single (n + 1) name := by
  induction n generalizing name with
  | zero => intro w hw; exact absurd hw (Language.notMem_zero w)
  | succ n ih =>
    cases hrule : g.findRule name with
    | none => simp [ruleLang, hrule]
    | some rule =>
      rw [ruleLang_succ hrule, ruleLang_succ hrule]
      exact altsLang_mono ih rule.alternatives

theorem ruleLang_mono {m n : Nat} (h : m ≤ n) (name : String) :
    ruleLang g single m name ≤ ruleLang g single n name := by
  induction h with
  | refl => exact le_refl _
  | step _ ih => exact le_trans ih (ruleLang_le_succ _ name)

theorem ruleLang_le_language (n : Nat) (name : String) :
    ruleLang g single n name ≤ g.language single name := by
  intro w hw
  exact Language.mem_iSup.mpr ⟨n, hw⟩

/-- A derivation in pieces, each of some depth, is one of some depth. -/
theorem exists_mem_mul {l m : Nat → Language Int} (hl : ∀ {i j}, i ≤ j → l i ≤ l j)
    (hm : ∀ {i j}, i ≤ j → m i ≤ m j) {L M : Language Int}
    (hL : ∀ w ∈ L, ∃ n, w ∈ l n) (hM : ∀ w ∈ M, ∃ n, w ∈ m n) :
    ∀ w ∈ L * M, ∃ n, w ∈ l n * m n := by
  intro w hw
  obtain ⟨u, hu, v, hv, rfl⟩ := Language.mem_mul.mp hw
  obtain ⟨i, hi⟩ := hL u hu
  obtain ⟨j, hj⟩ := hM v hv
  exact ⟨max i j, Language.append_mem_mul (hl (le_max_left i j) hi) (hm (le_max_right i j) hj)⟩

theorem exists_mem_kstar {l : Nat → Language Int} (hl : ∀ {i j}, i ≤ j → l i ≤ l j)
    {L : Language Int} (hL : ∀ w ∈ L, ∃ n, w ∈ l n) : ∀ w ∈ L∗, ∃ n, w ∈ (l n)∗ := by
  intro w hw
  obtain ⟨pieces, rfl, hpieces⟩ := Language.mem_kstar.mp hw
  have hall : ∃ n, ∀ piece ∈ pieces, piece ∈ l n := by
    clear hw
    induction pieces with
    | nil => exact ⟨0, by simp⟩
    | cons piece rest ih =>
      obtain ⟨i, hi⟩ := hL piece (hpieces piece List.mem_cons_self)
      obtain ⟨j, hj⟩ := ih fun other hother => hpieces other (List.mem_cons_of_mem _ hother)
      refine ⟨max i j, fun other hother => ?_⟩
      rcases List.mem_cons.mp hother with rfl | hrest
      · exact hl (le_max_left i j) hi
      · exact hl (le_max_right i j) (hj other hrest)
  obtain ⟨n, hn⟩ := hall
  exact ⟨n, Language.join_mem_kstar hn⟩

mutual

/-- A derivation nests rules to some depth. -/
theorem Element.exists_depth (e : Element) :
    ∀ w ∈ e.lang g single (g.language single), ∃ n, w ∈ e.lang g single (ruleLang g single n) := by
  cases e with
  | ruleRef name arg =>
    intro w hw
    simp only [Element.lang] at hw ⊢
    exact Language.mem_iSup.mp hw
  | tokenRef name kindId => intro w hw; exact ⟨0, by simpa only [Element.lang] using hw⟩
  | literal constName kindId => intro w hw; exact ⟨0, by simpa only [Element.lang] using hw⟩
  | group alternatives =>
    intro w hw
    simp only [Element.lang] at hw ⊢
    exact altsLang_exists_depth alternatives w hw
  | repeated kind element =>
    have hmono : ∀ {i j}, i ≤ j → element.lang g single (ruleLang g single i) ≤
        element.lang g single (ruleLang g single j) :=
      fun hle => Element.lang_mono (ruleLang_mono hle) element
    have hone := Element.exists_depth element
    cases kind with
    | star =>
      simp only [Element.lang]
      exact exists_mem_kstar hmono hone
    | plus =>
      simp only [Element.lang]
      exact exists_mem_mul hmono (fun hle => kstar_mono (hmono hle)) hone
        (exists_mem_kstar hmono hone)
    | optional =>
      intro w hw
      simp only [Element.lang, Language.mem_add] at hw ⊢
      rcases hw with hnil | hin
      · exact ⟨0, .inl hnil⟩
      · obtain ⟨n, hn⟩ := hone w hin
        exact ⟨n, .inr hn⟩
  | label name element =>
    intro w hw
    simp only [Element.lang] at hw ⊢
    exact Element.exists_depth element w hw
  | wildcard => intro w hw; exact ⟨0, by simpa only [Element.lang] using hw⟩
  | complement element => intro w hw; exact ⟨0, by simpa only [Element.lang] using hw⟩

theorem Alternative.exists_depth (a : Alternative) :
    ∀ w ∈ a.lang g single (g.language single), ∃ n, w ∈ a.lang g single (ruleLang g single n) := by
  cases a with
  | mk elements actions =>
    simp only [Alternative.lang]
    exact seqLang_exists_depth elements

theorem seqLang_exists_depth (elements : List Element) :
    ∀ w ∈ seqLang g single (g.language single) elements,
      ∃ n, w ∈ seqLang g single (ruleLang g single n) elements := by
  cases elements with
  | nil => intro w hw; exact ⟨0, by simpa only [seqLang] using hw⟩
  | cons e rest =>
    simp only [seqLang]
    exact exists_mem_mul (fun hle => Element.lang_mono (ruleLang_mono hle) e)
      (fun hle => seqLang_mono (ruleLang_mono hle) rest) (Element.exists_depth e)
      (seqLang_exists_depth rest)

theorem altsLang_exists_depth (alternatives : List Alternative) :
    ∀ w ∈ altsLang g single (g.language single) alternatives,
      ∃ n, w ∈ altsLang g single (ruleLang g single n) alternatives := by
  cases alternatives with
  | nil => intro w hw; exact ⟨0, by simpa only [altsLang] using hw⟩
  | cons a rest =>
    intro w hw
    simp only [altsLang, Language.mem_add] at hw ⊢
    rcases hw with hfirst | hrest
    · obtain ⟨n, hn⟩ := Alternative.exists_depth a w hfirst
      exact ⟨n, .inl hn⟩
    · obtain ⟨n, hn⟩ := altsLang_exists_depth rest w hrest
      exact ⟨n, .inr hn⟩

end

/-- A rule derives what its alternatives do. -/
theorem altsLang_le_language (h : g.findRule name = some rule) :
    altsLang g single (g.language single) rule.alternatives ≤ g.language single name := by
  intro w hw
  obtain ⟨n, hn⟩ := altsLang_exists_depth rule.alternatives w hw
  rw [← ruleLang_succ h] at hn
  exact ruleLang_le_language _ name hn

end Facts

end Gale

end Wado

/-
Which alternatives of a decision an earlier one subsumes: the comparison of alternatives, sequences
and elements, with the pairs of rules under comparison assumed to hold.
-/

namespace Wado

namespace Gale

def Element.peel : Element → Element
  | .label _ element => element.peel
  | e => e

def skippable (e : Element) : Bool :=
  match e.peel with
  | .repeated .star _ => true
  | .repeated .optional _ => true
  | _ => false

/-- The second kind repeats at least as often as the first can. -/
def countWithin : RepeatKind → RepeatKind → Bool
  | _, .star => true
  | .plus, .plus => true
  | _, .plus => false
  | .optional, .optional => true
  | _, .optional => false

def elementIsSelfRef (e : Element) (ruleName : String) : Bool :=
  match e with
  | .label _ (.ruleRef name _) => name = ruleName
  | .ruleRef name _ => name = ruleName
  | _ => false

def altIsLeftRecursive (a : Alternative) (ruleName : String) : Bool :=
  match a.elements with
  | [] => false
  | e :: _ => elementIsSelfRef e ruleName

def ruleIsLeftRecursive (rule : ParserRule) : Bool :=
  rule.alternatives.any fun a => altIsLeftRecursive a rule.name

/-- The alternatives of a rule that the comparison may read. -/
def comparableAlts (g : GrammarAnalysis) (name : String) : Option (List Alternative) := do
  let rule ← g.findRule name
  if ruleIsLeftRecursive rule then none else return rule.alternatives

def unfoldLimit : Nat := 16

/-- Whether one of the alternatives passes; a comparison without an answer has none. -/
def anyAlt (contains : Alternative → Option Bool) : List Alternative → Option Bool
  | [] => some false
  | a :: rest => (contains a).bind fun holds => if holds then some true else anyAlt contains rest

def everyAlt (contains : Alternative → Option Bool) : List Alternative → Option Bool
  | [] => some true
  | b :: rest => (contains b).bind fun holds => if holds then everyAlt contains rest else some false

/-- The pairs of rules that are assumed to hold, while their bodies are compared. -/
abbrev Assumed := List (String × String)

section Contains

variable (g : GrammarAnalysis)

mutual

/-- Whether the first alternative contains the second; without fuel there is no answer. -/
def altContains : Nat → Alternative → Alternative → Assumed → Nat → Option Bool
  | 0, _, _, _, _ => none
  | fuel + 1, a, b, assumed, depth =>
    if a.actions.isEmpty && b.actions.isEmpty then
      seqContains fuel a.elements b.elements assumed depth
    else some false

def seqContains : Nat → List Element → List Element → Assumed → Nat → Option Bool
  | 0, _, _, _, _ => none
  | _ + 1, as, [], _, _ => some (as.all skippable)
  | _ + 1, [], _ :: _, _, _ => some false
  | fuel + 1, a :: as, b :: bs, assumed, depth =>
    (elemContains fuel a b assumed depth).bind fun holds =>
      (if holds then seqContains fuel as bs assumed depth else some false).bind fun both =>
        if both then some true
        else if skippable a then seqContains fuel as (b :: bs) assumed depth
        else some false

def elemContains : Nat → Element → Element → Assumed → Nat → Option Bool
  | 0, _, _, _, _ => none
  | fuel + 1, a, b, assumed, depth =>
    match a.peel, b.peel with
    | .repeated ka ea, .repeated kb eb =>
      if countWithin kb ka then elemContains fuel ea eb assumed depth else some false
    | .repeated _ ea, b => elemContains fuel ea b assumed depth
    | _, .repeated _ _ => some false
    | .group ga, .group gb =>
      everyAlt (fun bt => anyAlt (fun alt => altContains fuel alt bt assumed depth) ga) gb
    | a, .group gb =>
      everyAlt (fun bt => altContains fuel (.new [a]) bt assumed depth) gb
    | .group ga, b => anyAlt (fun alt => altContains fuel alt (.new [b]) assumed depth) ga
    | .ruleRef _ (some _), _ => some false
    | .ruleRef _ none, .ruleRef _ (some _) => some false
    | .ruleRef ra none, .ruleRef rb none => ruleContains fuel ra rb assumed
    | .ruleRef ra none, b => unfoldedContains fuel ra b assumed depth
    | .tokenRef name kindId, b => terminalContains fuel (.tokenRef name kindId) b assumed depth
    | .literal name kindId, b => terminalContains fuel (.literal name kindId) b assumed depth
    | _, _ => some false

/-- The case of a terminal, which another equals or a rule unfolds into. -/
def terminalContains : Nat → Element → Element → Assumed → Nat → Option Bool
  | 0, _, _, _, _ => none
  | fuel + 1, a, b, assumed, depth =>
    match b with
    | .tokenRef name kindId =>
      some (g.terminalKind a = g.terminalKind (.tokenRef name kindId))
    | .literal name kindId =>
      some (g.terminalKind a = g.terminalKind (.literal name kindId))
    | .ruleRef rb none => unfoldedContained fuel a rb assumed depth
    | _ => some false

/-- A pair already being compared is assumed to hold. -/
def ruleContains : Nat → String → String → Assumed → Option Bool
  | 0, _, _, _ => none
  | fuel + 1, ra, rb, assumed =>
    if ra = rb then some true
    else match comparableAlts g ra, comparableAlts g rb with
      | some altsA, some altsB =>
        if (ra, rb) ∈ assumed then some true
        else everyAlt (fun bt =>
          anyAlt (fun alt => altContains fuel alt bt ((ra, rb) :: assumed) 0) altsA) altsB
      | _, _ => some false

def unfoldedContains : Nat → String → Element → Assumed → Nat → Option Bool
  | 0, _, _, _, _ => none
  | fuel + 1, ra, b, assumed, depth =>
    if unfoldLimit ≤ depth then some false
    else match comparableAlts g ra with
      | none => some false
      | some altsA =>
        anyAlt (fun alt => altContains fuel alt (.new [b]) assumed (depth + 1)) altsA

def unfoldedContained : Nat → Element → String → Assumed → Nat → Option Bool
  | 0, _, _, _, _ => none
  | fuel + 1, a, rb, assumed, depth =>
    if unfoldLimit ≤ depth then some false
    else match comparableAlts g rb with
      | none => some false
      | some altsB =>
        everyAlt (fun bt => altContains fuel (.new [a]) bt assumed (depth + 1)) altsB

end

end Contains

/-- Whether an alternative of a lower index subsumes the slot's. -/
def anySlot (subsumes : Nat → Option Bool) : List Nat → Option Bool
  | [] => some false
  | a :: rest => (subsumes a).bind fun holds => if holds then some true else anySlot subsumes rest

/-- Per slot, whether an alternative of a lower index subsumes it; of a left-recursive rule's own
alternatives none is. -/
def subsumedAlts (g : GrammarAnalysis) (fuel : Nat) (altOf : List Nat) (alts : List Alternative)
    (ranked : Bool) : Option (List Bool) :=
  if ranked then some (altOf.map fun _ => false)
  else altOf.mapM fun b => anySlot (fun a =>
    if a < b then
      (alts[a]?).bind fun first => (alts[b]?).bind fun second =>
        altContains g fuel first second [] 0
    else some false) altOf

end Gale

end Wado
