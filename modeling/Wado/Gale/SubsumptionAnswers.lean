/-
The comparison of alternatives answers on every grammar: what it compares gets smaller, until it
unfolds a rule, which it does to a limit, or assumes a pair of rules, of which there are few.
-/
import Wado.Gale.SubsumptionSound
import Mathlib.Data.Finset.Prod
import Mathlib.Algebra.Order.BigOperators.Group.List
import Mathlib.Algebra.Order.Ring.Nat

namespace Wado.Gale

open List Option

mutual

/-- How many units an element is made of. -/
def Element.size : Element → Nat
  | .group alternatives => 1 + altsSize alternatives
  | .repeated _ element => 1 + element.size
  | .label _ element => 1 + element.size
  | .complement element => 1 + element.size
  | .ruleRef _ _ => 1
  | .tokenRef _ _ => 1
  | .literal _ _ => 1
  | .wildcard => 1

def Alternative.size : Alternative → Nat
  | .mk elements _ => seqSize elements

def seqSize : List Element → Nat
  | [] => 0
  | e :: rest => e.size + seqSize rest

def altsSize : List Alternative → Nat
  | [] => 0
  | a :: rest => a.size + altsSize rest

end

theorem Element.size_pos (e : Element) : 0 < e.size := by
  cases e <;> simp only [Element.size] <;> omega

theorem Element.peel_size : ∀ e : Element, e.peel.size ≤ e.size
  | .label _ element => by
    have hle := Element.peel_size element
    simp only [Element.peel, Element.size]
    omega
  | .ruleRef _ _ => le_refl _
  | .tokenRef _ _ => le_refl _
  | .literal _ _ => le_refl _
  | .group _ => le_refl _
  | .repeated _ _ => le_refl _
  | .wildcard => le_refl _
  | .complement _ => le_refl _

theorem Alternative.size_new (e : Element) : (Alternative.new [e]).size = e.size := by
  simp [Alternative.new, Alternative.size, seqSize]

theorem Alternative.size_eq (a : Alternative) : a.size = seqSize a.elements := by
  cases a
  simp [Alternative.size, Alternative.elements]

variable {alternatives : List Alternative}

variable {a : Alternative}

theorem size_le_altsSize (h : a ∈ alternatives) : a.size ≤ altsSize alternatives := by
  induction alternatives with
  | nil => cases h
  | cons first rest ih =>
    simp only [altsSize]
    rcases mem_cons.mp h with rfl | hin
    · exact Nat.le_add_right _ _
    · exact le_trans (ih hin) (Nat.le_add_left _ _)

variable {contains : Alternative → Option Bool}

theorem anyAlt_isSome
    (h : ∀ a ∈ alternatives, (contains a).isSome) : (anyAlt contains alternatives).isSome := by
  induction alternatives with
  | nil => rfl
  | cons a rest ih =>
    obtain ⟨holds, hholds⟩ := isSome_iff_exists.mp (h a mem_cons_self)
    simp only [anyAlt, hholds, bind_some]
    split
    · rfl
    · exact ih fun other hother => h other (mem_cons_of_mem _ hother)

theorem everyAlt_isSome
    (h : ∀ b ∈ alternatives, (contains b).isSome) : (everyAlt contains alternatives).isSome := by
  induction alternatives with
  | nil => rfl
  | cons b rest ih =>
    obtain ⟨holds, hholds⟩ := isSome_iff_exists.mp (h b mem_cons_self)
    simp only [everyAlt, hholds, bind_some]
    split
    · exact ih fun other hother => h other (mem_cons_of_mem _ hother)
    · rfl

variable {assumed : Assumed} {size : Nat}

variable {ra rb : String}

section Ranks

local instance lawfulPair : LawfulBEq (String × String) := inferInstance

variable (g : GrammarAnalysis)

def ruleNames : Finset String := (g.parserRules.map ParserRule.name).toFinset

/-- How many pairs of rules are not assumed. -/
def pairsLeft (assumed : Assumed) : Nat :=
  ((ruleNames g ×ˢ ruleNames g).filter (· ∉ assumed)).card

/-- How much one comparison without unfolding can take, with sides of at most a size. -/
def span (size : Nat) : Nat := 10 * size + 6

/-- What a comparison can take at most. -/
def rank (size : Nat) (assumed : Assumed) (depth own : Nat) : Nat :=
  pairsLeft g assumed * (17 * span size) + (unfoldLimit - depth) * span size + own

variable {g}

theorem pairsLeft_cons (ha : ra ∈ ruleNames g) (hb : rb ∈ ruleNames g) (h : (ra, rb) ∉ assumed) :
    pairsLeft g ((ra, rb) :: assumed) < pairsLeft g assumed := by
  apply Finset.card_lt_card
  refine ⟨fun pair hpair => ?_, fun hsub => ?_⟩
  · rw [Finset.mem_filter] at hpair ⊢
    exact ⟨hpair.1, fun hin => hpair.2 (mem_cons_of_mem _ hin)⟩
  · have hin := hsub (Finset.mem_filter.mpr ⟨Finset.mk_mem_product ha hb, h⟩)
    exact (Finset.mem_filter.mp hin).2 mem_cons_self

theorem rank_own {depth own own' : Nat} (h : own < own') :
    rank g size assumed depth own < rank g size assumed depth own' := by
  simp only [rank]
  omega

/-- Unfolding a rule costs one of the unfoldings left. -/
theorem rank_unfold {depth own : Nat} (hdepth : depth < unfoldLimit) (hown : own < span size) :
    rank g size assumed (depth + 1) own < rank g size assumed depth 0 := by
  have hleft : unfoldLimit - depth = unfoldLimit - (depth + 1) + 1 := by omega
  simp only [rank, hleft, Nat.add_mul, Nat.one_mul]
  omega

/-- Comparing the bodies of two rules costs one of the pairs left. -/
theorem rank_assume {pair : String × String} {own : Nat}
    (hpair : pairsLeft g (pair :: assumed) < pairsLeft g assumed) (hown : own < span size) :
    rank g size (pair :: assumed) 0 own < pairsLeft g assumed * (17 * span size) := by
  have hstep : (pairsLeft g (pair :: assumed) + 1) * (17 * span size) ≤
      pairsLeft g assumed * (17 * span size) := Nat.mul_le_mul_right _ hpair
  have hlimit : unfoldLimit - 0 = 16 := rfl
  simp only [rank, hlimit]
  rw [Nat.add_mul, Nat.one_mul] at hstep
  omega

variable {name : String}

theorem comparableAlts_mem
    (h : comparableAlts g name = some alternatives) : name ∈ ruleNames g := by
  obtain ⟨rule, hrule, _⟩ := comparableAlts_rule h
  have hname := List.find?_some hrule
  have hmem := mem_reverse.mp (mem_of_find?_eq_some hrule)
  simp only [decide_eq_true_eq] at hname
  exact mem_toFinset.mpr (mem_map.mpr ⟨rule, hmem, hname⟩)

variable (g) in
/-- The size of what the rules of a grammar are made of. -/
def bodiesSize : Nat := (g.parserRules.map fun rule => altsSize rule.alternatives).sum

theorem comparableAlts_size
    (h : comparableAlts g name = some alternatives) (ha : a ∈ alternatives) :
    a.size ≤ bodiesSize g := by
  obtain ⟨rule, hrule, rfl⟩ := comparableAlts_rule h
  have hmem := mem_reverse.mp (mem_of_find?_eq_some hrule)
  refine le_trans (size_le_altsSize ha) ?_
  exact single_le_sum (by simp) _ (mem_map.mpr ⟨rule, hmem, rfl⟩)

variable (g) in
/-- Comparisons of sides of at most a size answer with more fuel than they can take. -/
structure Answers (size fuel : Nat) : Prop where
  alts : ∀ {a b : Alternative} {assumed : Assumed} {depth : Nat}, a.size ≤ size → b.size ≤ size →
    rank g size assumed depth (5 * (a.size + b.size) + 4) < fuel →
      (altContains g fuel a b assumed depth).isSome
  seqs : ∀ {as bs : List Element} {assumed : Assumed} {depth : Nat}, seqSize as ≤ size →
    seqSize bs ≤ size → rank g size assumed depth (5 * (seqSize as + seqSize bs) + 3) < fuel →
      (seqContains g fuel as bs assumed depth).isSome
  elems : ∀ {a b : Element} {assumed : Assumed} {depth : Nat}, a.size ≤ size → b.size ≤ size →
    rank g size assumed depth (5 * (a.size + b.size) + 2) < fuel →
      (elemContains g fuel a b assumed depth).isSome
  terminals : ∀ {a b : Element} {assumed : Assumed} {depth : Nat}, a.size ≤ size →
    rank g size assumed depth 1 < fuel → (terminalContains g fuel a b assumed depth).isSome
  rules : ∀ {ra rb : String} {assumed : Assumed},
    pairsLeft g assumed * (17 * span size) < fuel → (ruleContains g fuel ra rb assumed).isSome
  unfoldeds : ∀ {ra : String} {b : Element} {assumed : Assumed} {depth : Nat}, b.size ≤ size →
    rank g size assumed depth 0 < fuel → (unfoldedContains g fuel ra b assumed depth).isSome
  unfolding : ∀ {a : Element} {rb : String} {assumed : Assumed} {depth : Nat}, a.size ≤ size →
    rank g size assumed depth 0 < fuel → (unfoldedContained g fuel a rb assumed depth).isSome

end Ranks

namespace Answers

variable {g : GrammarAnalysis} {size fuel : Nat} (h : Answers g size fuel)
include h

variable {depth : Nat}

theorem altContains_succ {a b : Alternative} (ha : a.size ≤ size) (hb : b.size ≤ size)
    (hrank : rank g size assumed depth (5 * (a.size + b.size) + 4) < fuel + 1) :
    (altContains g (fuel + 1) a b assumed depth).isSome := by
  rw [altContains]
  split
  · rw [a.size_eq] at ha hrank
    rw [b.size_eq] at hb hrank
    exact h.seqs ha hb (lt_of_lt_of_le (rank_own (by omega)) (Nat.lt_succ_iff.mp hrank))
  · rfl

theorem seqContains_succ {as bs : List Element} (has : seqSize as ≤ size) (hbs : seqSize bs ≤ size)
    (hrank : rank g size assumed depth (5 * (seqSize as + seqSize bs) + 3) < fuel + 1) :
    (seqContains g (fuel + 1) as bs assumed depth).isSome := by
  cases bs with
  | nil => simp [seqContains]
  | cons b bs =>
    cases as with
    | nil => simp [seqContains]
    | cons a as =>
      have hposA := a.size_pos
      have hposB := b.size_pos
      have hunfold : seqSize (b :: bs) = b.size + seqSize bs := rfl
      simp only [seqSize] at has hbs hrank
      have hless : ∀ {own}, own < 5 * (a.size + seqSize as + (b.size + seqSize bs)) + 3 →
          rank g size assumed depth own < fuel :=
        fun hown => lt_of_lt_of_le (rank_own hown) (Nat.lt_succ_iff.mp hrank)
      obtain ⟨holds, hholds⟩ := isSome_iff_exists.mp
        (@elems _ _ _ h a b assumed depth (by omega) (by omega) (hless (by omega)))
      obtain ⟨paired, hpaired⟩ := isSome_iff_exists.mp
        (@seqs _ _ _ h as bs assumed depth (by omega) (by omega) (hless (by omega)))
      have hskipped : (seqContains g fuel as (b :: bs) assumed depth).isSome :=
        h.seqs (by omega) (by omega) (hless (by omega))
      simp only [seqContains, hholds, bind_some]
      cases holds with
      | false =>
        simp only [Bool.false_eq_true, if_false, bind_some]
        split
        · exact hskipped
        · rfl
      | true =>
        simp only [if_true, hpaired, bind_some]
        split
        · rfl
        · split
          · exact hskipped
          · rfl

variable {a b : Element}

theorem elemContains_succ (ha : a.size ≤ size) (hb : b.size ≤ size)
    (hrank : rank g size assumed depth (5 * (a.size + b.size) + 2) < fuel + 1) :
    (elemContains g (fuel + 1) a b assumed depth).isSome := by
  have hpeelA := a.peel_size
  have hpeelB := b.peel_size
  have hless : ∀ {own}, own < 5 * (a.size + b.size) + 2 → rank g size assumed depth own < fuel :=
    fun hown => lt_of_lt_of_le (rank_own hown) (Nat.lt_succ_iff.mp hrank)
  rw [elemContains]
  split
  · rename_i ka ea kb eb heqA heqB
    rw [heqA, Element.size] at hpeelA
    rw [heqB, Element.size] at hpeelB
    split
    · exact h.elems (by omega) (by omega) (hless (by omega))
    · rfl
  · rename_i kind ea heqA _
    rw [heqA, Element.size] at hpeelA
    exact h.elems (by omega) (by omega) (hless (by omega))
  · rfl
  · rename_i ga gb heqA heqB
    rw [heqA, Element.size] at hpeelA
    rw [heqB, Element.size] at hpeelB
    refine everyAlt_isSome fun bt hbt => anyAlt_isSome fun alt halt => ?_
    have hsizeA := size_le_altsSize halt
    have hsizeB := size_le_altsSize hbt
    exact h.alts (by omega) (by omega) (hless (by omega))
  · rename_i gb heqB _ _
    rw [heqB, Element.size] at hpeelB
    refine everyAlt_isSome fun bt hbt => ?_
    have hsizeB := size_le_altsSize hbt
    have hsizeA := Alternative.size_new a.peel
    exact h.alts (by omega) (by omega) (hless (by omega))
  · rename_i ga heqA _ _
    rw [heqA, Element.size] at hpeelA
    refine anyAlt_isSome fun alt halt => ?_
    have hsizeA := size_le_altsSize halt
    have hsizeB := Alternative.size_new b.peel
    exact h.alts (by omega) (by omega) (hless (by omega))
  · rfl
  · rfl
  · have hzero : pairsLeft g assumed * (17 * span size) ≤ rank g size assumed depth 0 := by
      simp only [rank]
      omega
    exact h.rules (lt_of_le_of_lt hzero (hless (by omega)))
  · exact h.unfoldeds (by omega) (hless (by omega))
  · rename_i name kindId heqA _ _
    rw [heqA] at hpeelA
    have hpos := (Element.tokenRef name kindId).size_pos
    exact h.terminals (by omega) (hless (by omega))
  · rename_i name kindId heqA _ _
    rw [heqA] at hpeelA
    have hpos := (Element.literal name kindId).size_pos
    exact h.terminals (by omega) (hless (by omega))
  · rfl

theorem terminalContains_succ
    (ha : a.size ≤ size) (hrank : rank g size assumed depth 1 < fuel + 1) :
    (terminalContains g (fuel + 1) a b assumed depth).isSome := by
  unfold terminalContains
  split
  · rfl
  · rfl
  · exact h.unfolding ha (lt_of_lt_of_le (rank_own (by omega)) (Nat.lt_succ_iff.mp hrank))
  · rfl

section

variable (hbodies : bodiesSize g ≤ size)
include hbodies

theorem ruleContains_succ (hrank : pairsLeft g assumed * (17 * span size) < fuel + 1) :
    (ruleContains g (fuel + 1) ra rb assumed).isSome := by
  rw [ruleContains]
  split
  · rfl
  · split
    · rename_i altsA altsB haltsA haltsB
      split
      · rfl
      · rename_i hnew
        refine everyAlt_isSome fun bt hbt => anyAlt_isSome fun alt halt => ?_
        have hsizeA := comparableAlts_size haltsA halt
        have hsizeB := comparableAlts_size haltsB hbt
        refine h.alts (by omega) (by omega) (lt_of_lt_of_le (rank_assume ?_ ?_)
          (Nat.lt_succ_iff.mp hrank))
        · exact pairsLeft_cons (comparableAlts_mem haltsA) (comparableAlts_mem haltsB) hnew
        · simp only [span]
          omega
    · rfl

theorem unfoldedContains_succ {ra : String} {b : Element}
    (hb : b.size ≤ size) (hrank : rank g size assumed depth 0 < fuel + 1) :
    (unfoldedContains g (fuel + 1) ra b assumed depth).isSome := by
  rw [unfoldedContains]
  split
  · rfl
  · rename_i hdepth
    split
    · rfl
    · rename_i altsA haltsA
      refine anyAlt_isSome fun alt halt => ?_
      have hsizeA := comparableAlts_size haltsA halt
      have hsizeB := Alternative.size_new b
      refine h.alts (by omega) (by omega) (lt_of_lt_of_le (rank_unfold (by omega) ?_)
        (Nat.lt_succ_iff.mp hrank))
      simp only [span]
      omega

theorem unfoldedContained_succ {a : Element} {rb : String}
    (ha : a.size ≤ size) (hrank : rank g size assumed depth 0 < fuel + 1) :
    (unfoldedContained g (fuel + 1) a rb assumed depth).isSome := by
  rw [unfoldedContained]
  split
  · rfl
  · rename_i hdepth
    split
    · rfl
    · rename_i altsB haltsB
      refine everyAlt_isSome fun bt hbt => ?_
      have hsizeB := comparableAlts_size haltsB hbt
      have hsizeA := Alternative.size_new a
      refine h.alts (by omega) (by omega) (lt_of_lt_of_le (rank_unfold (by omega) ?_)
        (Nat.lt_succ_iff.mp hrank))
      simp only [span]
      omega

end

end Answers

theorem answers {g : GrammarAnalysis} (hbodies : bodiesSize g ≤ size)
    (fuel : Nat) : Answers g size fuel := by
  induction fuel with
  | zero => constructor <;> intros <;> omega
  | succ fuel ih =>
    exact {
      alts := ih.altContains_succ
      seqs := ih.seqContains_succ
      elems := ih.elemContains_succ
      terminals := ih.terminalContains_succ
      rules := ih.ruleContains_succ hbodies
      unfoldeds := ih.unfoldedContains_succ hbodies
      unfolding := ih.unfoldedContained_succ hbodies }

/-- On every grammar the comparison of two alternatives answers, with fuel enough. -/
theorem altContains_answers (g : GrammarAnalysis) (a b : Alternative) (assumed : Assumed)
    (depth : Nat) :
    ∃ enough, ∀ fuel, enough ≤ fuel → (altContains g fuel a b assumed depth).isSome := by
  refine ⟨rank g (bodiesSize g + a.size + b.size) assumed depth (5 * (a.size + b.size) + 4) + 1,
    fun fuel hfuel => ?_⟩
  exact (answers (show bodiesSize g ≤ bodiesSize g + a.size + b.size by omega) fuel).alts
    (by omega) (by omega) hfuel

/-- Subsumption is sound, and its comparison answers on every grammar: where an alternative
contains another from no assumptions, every token string the other derives is one of its own. -/
theorem altContains_sound (g : GrammarAnalysis) (single : Element → Int → Prop)
    (a b : Alternative) :
    (∃ enough, ∀ fuel, enough ≤ fuel → (altContains g fuel a b [] 0).isSome) ∧
      ∀ fuel, altContains g fuel a b [] 0 = some true → b.language g single ≤ a.language g single :=
  ⟨altContains_answers g a b [] 0, fun _ h => language_le_of_altContains h⟩

/-- Two rules of lists, one of which allows another element. -/
def listRules : GrammarAnalysis where
  parserRules := [⟨"items", [.new [.group [.new [.tokenRef "NAME" 1], .new [.tokenRef "NUMBER" 2]],
      .repeated .optional (.ruleRef "items" none)]]⟩,
    ⟨"names", [.new [.tokenRef "NAME" 1, .ruleRef "names" none], .new [.tokenRef "NAME" 1]]⟩]
  intern := fun _ => 0

theorem altContains_sound_lists :
    altContains listRules 24 (.new [.ruleRef "items" none]) (.new [.ruleRef "names" none]) [] 0 =
      some true ∧
    (Alternative.new [.ruleRef "names" none]).language listRules (fun _ _ => False) ≤
      (Alternative.new [.ruleRef "items" none]).language listRules fun _ _ => False :=
  have h : altContains listRules 24 (.new [.ruleRef "items" none]) (.new [.ruleRef "names" none])
    [] 0 = some true := by decide +kernel
  ⟨h, (altContains_sound listRules (fun _ _ => False) _ _).2 24 h⟩

end Wado.Gale
