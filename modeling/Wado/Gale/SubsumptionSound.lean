/-
The comparison of alternatives is sound: one that contains another derives every token string
that the other does.
-/
import Wado.Gale.Grammar

namespace Wado.Gale

open Computability Option Element

section Sound

variable {g : GrammarAnalysis} {single : Element → Int → Prop}

theorem peel_lang (below : String → Language Int) :
    ∀ e : Element, e.peel.lang g single below = e.lang g single below
  | .label _ element => by
    rw [peel, peel_lang below element]
    simp only [lang]
  | .ruleRef _ _ => rfl
  | .tokenRef _ _ => rfl
  | .literal _ _ => rfl
  | .group _ => rfl
  | .repeated _ _ => rfl
  | .wildcard => rfl
  | .complement _ => rfl

variable {below : String → Language Int}

theorem one_le_of_skippable {e : Element} (h : skippable e = true) : 1 ≤ e.lang g single below := by
  rw [← peel_lang]
  unfold skippable at h
  split at h
  · rename_i element heq
    rw [heq]
    simp only [lang]
    exact one_le_kstar
  · rename_i element heq
    rw [heq]
    simp only [lang]
    exact le_self_add
  · cases h

theorem one_le_of_all_skippable {elements : List Element}
    (h : elements.all skippable = true) : 1 ≤ seqLang g single below elements := by
  induction elements with
  | nil => simp only [seqLang, le_refl]
  | cons e rest ih =>
    rw [List.all_cons, Bool.and_eq_true] at h
    simp only [seqLang]
    calc (1 : Language Int) = 1 * 1 := (mul_one 1).symm
      _ ≤ _ := mul_le_mul' (one_le_of_skippable h.1) (ih h.2)

variable {bound : Language Int}

theorem le_repeated {kind : RepeatKind} {e : Element} (h : bound ≤ e.lang g single below) :
    bound ≤ (repeated kind e).lang g single below := by
  refine le_trans h ?_
  cases kind with
  | star =>
    simp only [lang]
    exact le_kstar
  | plus =>
    simp only [lang]
    calc e.lang g single below = e.lang g single below * 1 := (mul_one _).symm
      _ ≤ _ := mul_le_mul' (le_refl _) one_le_kstar
  | optional =>
    simp only [lang]
    exact le_add_self

theorem repeated_le_repeated {below below' : String → Language Int} {ka kb : RepeatKind}
    {ea eb : Element} (hcount : countWithin kb ka = true)
    (h : eb.lang g single below ≤ ea.lang g single below') :
    (repeated kb eb).lang g single below ≤
      (repeated ka ea).lang g single below' := by
  have hstar : (eb.lang g single below)∗ ≤ (ea.lang g single below')∗ := kstar_mono h
  cases ka with
  | star =>
    cases kb with
    | star =>
      simp only [lang]
      exact hstar
    | plus =>
      simp only [lang]
      exact le_trans (mul_le_mul' (le_refl _) (le_refl _))
        (le_trans mul_kstar_le_kstar hstar)
    | optional =>
      simp only [lang]
      exact le_trans (add_le one_le_kstar le_kstar) hstar
  | plus =>
    cases kb with
    | star => cases hcount
    | plus =>
      simp only [lang]
      exact mul_le_mul' h hstar
    | optional => cases hcount
  | optional =>
    cases kb with
    | star => cases hcount
    | plus => cases hcount
    | optional =>
      simp only [lang]
      exact add_le_add (le_refl 1) h

variable {contains : Alternative → Option Bool} {alternatives : List Alternative}

theorem anyAlt_true (h : anyAlt contains alternatives = some true) :
    ∃ a ∈ alternatives, contains a = some true := by
  induction alternatives with
  | nil => cases h
  | cons a rest ih =>
    rw [anyAlt, bind_eq_some_iff] at h
    obtain ⟨holds, ha, h⟩ := h
    cases holds with
    | true => exact ⟨a, List.mem_cons_self, ha⟩
    | false =>
      obtain ⟨other, hother, hin⟩ := ih h
      exact ⟨other, List.mem_cons_of_mem _ hother, hin⟩

theorem everyAlt_true (h : everyAlt contains alternatives = some true) :
    ∀ b ∈ alternatives, contains b = some true := by
  induction alternatives with
  | nil => simp
  | cons b rest ih =>
    rw [everyAlt, bind_eq_some_iff] at h
    obtain ⟨holds, hb, h⟩ := h
    cases holds with
    | false => cases h
    | true =>
      intro other hother
      rcases List.mem_cons.mp hother with rfl | hin
      · exact hb
      · exact ih h other hin

variable {name : String}

variable {m : Nat}

section

variable (h : comparableAlts g name = some alternatives)
include h

theorem comparableAlts_rule :
    ∃ rule, g.findRule name = some rule ∧ rule.alternatives = alternatives := by
  simp only [comparableAlts, bind_eq_bind, bind_eq_some_iff] at h
  obtain ⟨rule, hrule, h⟩ := h
  split at h
  · cases h
  · exact ⟨rule, hrule, Option.some.inj h⟩

/-- An alternative of a rule derives strings of the rule. -/
theorem le_language {a : Alternative} (ha : a ∈ alternatives) :
    a.lang g single (g.language single) ≤ g.language single name := by
  obtain ⟨rule, hrule, rfl⟩ := comparableAlts_rule h
  exact le_trans (le_altsLang ha) (altsLang_le_language hrule)

/-- A rule derives at some depth what bounds its alternatives at the depth below. -/
theorem ruleLang_succ_le
    (hall : ∀ b ∈ alternatives, b.lang g single (ruleLang g single m) ≤ bound) :
    ruleLang g single (m + 1) name ≤ bound := by
  obtain ⟨rule, hrule, rfl⟩ := comparableAlts_rule h
  rw [ruleLang_succ hrule]
  exact altsLang_le hall

end

theorem ruleLang_zero_le (name : String) (bound : Language Int) :
    ruleLang g single 0 name ≤ bound := by
  intro w hw
  exact absurd hw (Language.notMem_zero w)

variable (g single) in
/-- The assumed pairs hold for derivations in which rules nest at most so deep. -/
def Holds (m : Nat) (assumed : Assumed) : Prop :=
  ∀ pair ∈ assumed, ruleLang g single m pair.2 ≤ g.language single pair.1

variable {assumed : Assumed}

theorem Holds.of_succ (h : Holds g single (m + 1) assumed) :
    Holds g single m assumed :=
  fun pair hpair => le_trans (ruleLang_le_succ m pair.2) (h pair hpair)

variable (g single) in
/-- What the comparisons with so much fuel answer is right at every depth at which the assumed
pairs hold. -/
structure Sound (fuel : Nat) : Prop where
  alts : ∀ {a b : Alternative} {assumed : Assumed} {depth m : Nat},
    altContains g fuel a b assumed depth = some true → Holds g single m assumed →
      b.lang g single (ruleLang g single m) ≤ a.lang g single (g.language single)
  seqs : ∀ {as bs : List Element} {assumed : Assumed} {depth m : Nat},
    seqContains g fuel as bs assumed depth = some true → Holds g single m assumed →
      seqLang g single (ruleLang g single m) bs ≤ seqLang g single (g.language single) as
  elems : ∀ {a b : Element} {assumed : Assumed} {depth m : Nat},
    elemContains g fuel a b assumed depth = some true → Holds g single m assumed →
      b.lang g single (ruleLang g single m) ≤ a.lang g single (g.language single)
  terminals : ∀ {a b : Element} {assumed : Assumed} {depth m : Nat},
    (∀ below, a.lang g single below = {w | ∃ kind ∈ g.terminalKind a, w = [kind]}) →
      terminalContains g fuel a b assumed depth = some true → Holds g single m assumed →
        b.lang g single (ruleLang g single m) ≤ a.lang g single (g.language single)
  rules : ∀ {ra rb : String} {assumed : Assumed} {m : Nat},
    ruleContains g fuel ra rb assumed = some true → Holds g single m assumed →
      ruleLang g single m rb ≤ g.language single ra
  unfoldeds : ∀ {ra : String} {b : Element} {assumed : Assumed} {depth m : Nat},
    unfoldedContains g fuel ra b assumed depth = some true → Holds g single m assumed →
      b.lang g single (ruleLang g single m) ≤ g.language single ra
  unfolding : ∀ {a : Element} {rb : String} {assumed : Assumed} {depth m : Nat},
    unfoldedContained g fuel a rb assumed depth = some true → Holds g single m assumed →
      ruleLang g single m rb ≤ a.lang g single (g.language single)

variable {a b : Alternative}

namespace Sound

variable {fuel : Nat} (h : Sound g single fuel)
include h

variable {depth m : Nat}

theorem altContains_succ (htrue : altContains g (fuel + 1) a b assumed depth = some true)
    (hholds : Holds g single m assumed) :
    b.lang g single (ruleLang g single m) ≤ a.lang g single (g.language single) := by
  rw [altContains] at htrue
  split at htrue
  · rw [lang_eq_seqLang, lang_eq_seqLang]
    exact h.seqs htrue hholds
  · cases htrue

theorem seqContains_succ {as bs : List Element}
    (htrue : seqContains g (fuel + 1) as bs assumed depth = some true)
    (hholds : Holds g single m assumed) :
    seqLang g single (ruleLang g single m) bs ≤ seqLang g single (g.language single) as := by
  cases bs with
  | nil =>
    simp only [seqContains, Option.some.injEq] at htrue
    rw [seqLang]
    exact one_le_of_all_skippable htrue
  | cons b bs =>
    cases as with
    | nil => simp [seqContains] at htrue
    | cons a as =>
      simp only [seqContains, bind_eq_some_iff] at htrue
      obtain ⟨holds, helem, both, hboth, htrue⟩ := htrue
      by_cases hpaired : both = true
      · subst hpaired
        split at hboth
        · rename_i hholdsElem
          subst hholdsElem
          rw [seqLang, seqLang]
          exact mul_le_mul' (h.elems helem hholds) (h.seqs hboth hholds)
        · cases hboth
      · rw [if_neg hpaired] at htrue
        split at htrue
        · rename_i hskip
          rw [seqLang.eq_2 _ _ _ a as]
          calc seqLang g single (ruleLang g single m) (b :: bs)
              = 1 * seqLang g single (ruleLang g single m) (b :: bs) := (one_mul _).symm
            _ ≤ _ := mul_le_mul' (one_le_of_skippable hskip) (h.seqs htrue hholds)
        · cases htrue

variable {a b : Element}

theorem elemContains_succ (htrue : elemContains g (fuel + 1) a b assumed depth = some true)
    (hholds : Holds g single m assumed) :
    b.lang g single (ruleLang g single m) ≤ a.lang g single (g.language single) := by
  rw [elemContains] at htrue
  rw [← peel_lang _ a, ← peel_lang _ b]
  split at htrue
  · rename_i ka ea kb eb hpeelA hpeelB
    rw [hpeelA, hpeelB]
    split at htrue
    · rename_i hcount
      exact repeated_le_repeated hcount (h.elems htrue hholds)
    · cases htrue
  · rename_i kind ea hpeelA _
    rw [hpeelA]
    exact le_repeated (h.elems htrue hholds)
  · cases htrue
  · rename_i ga gb hpeelA hpeelB
    rw [hpeelA, hpeelB]
    simp only [lang]
    refine altsLang_le fun bt hbt => ?_
    obtain ⟨alt, halt, hin⟩ := anyAlt_true (everyAlt_true htrue bt hbt)
    exact le_trans (h.alts hin hholds) (le_altsLang halt)
  · rename_i gb hpeelB _ _
    rw [hpeelB]
    simp only [lang]
    refine altsLang_le fun bt hbt => ?_
    have hin := h.alts (everyAlt_true htrue bt hbt) hholds
    rwa [lang_new] at hin
  · rename_i ga hpeelA _ _
    rw [hpeelA]
    simp only [lang]
    obtain ⟨alt, halt, hin⟩ := anyAlt_true htrue
    have hle := h.alts hin hholds
    rw [lang_new] at hle
    exact le_trans hle (le_altsLang halt)
  · cases htrue
  · cases htrue
  · rename_i ra rb hpeelA hpeelB
    rw [hpeelA, hpeelB]
    simp only [lang]
    exact h.rules htrue hholds
  · rename_i ra hpeelA _ _ _ _
    rw [hpeelA]
    simp only [lang]
    exact h.unfoldeds htrue hholds
  · rename_i name kindId hpeelA _ _
    rw [hpeelA]
    exact h.terminals (fun below => by rw [lang]) htrue hholds
  · rename_i name kindId hpeelA _ _
    rw [hpeelA]
    exact h.terminals (fun below => by rw [lang]) htrue hholds
  · cases htrue

theorem terminalContains_succ
    (ha : ∀ below, a.lang g single below = {w | ∃ kind ∈ g.terminalKind a, w = [kind]})
    (htrue : terminalContains g (fuel + 1) a b assumed depth = some true)
    (hholds : Holds g single m assumed) :
    b.lang g single (ruleLang g single m) ≤ a.lang g single (g.language single) := by
  unfold terminalContains at htrue
  split at htrue
  · rename_i name kindId
    simp only [Option.some.injEq, decide_eq_true_eq] at htrue
    rw [ha, htrue, lang]
    exact le_refl _
  · rename_i name kindId
    simp only [Option.some.injEq, decide_eq_true_eq] at htrue
    rw [ha, htrue, lang]
    exact le_refl _
  · rename_i rb
    simp only [lang.eq_1 _ _ _ rb]
    exact h.unfolding htrue hholds
  · cases htrue

/-- The pair under comparison holds at every depth, from the depth below. -/
theorem ruleContains_succ {ra rb : String}
    (htrue : ruleContains g (fuel + 1) ra rb assumed = some true)
    (hholds : Holds g single m assumed) :
    ruleLang g single m rb ≤ g.language single ra := by
  rw [ruleContains] at htrue
  split at htrue
  · rename_i heq
    subst heq
    exact ruleLang_le_language m ra
  · split at htrue
    · rename_i altsA altsB haltsA haltsB
      split at htrue
      · rename_i hin
        exact hholds _ hin
      · clear * - h htrue hholds haltsA haltsB
        induction m with
        | zero => exact ruleLang_zero_le rb _
        | succ m ih =>
          have hpair : Holds g single m ((ra, rb) :: assumed) := by
            intro pair hpair
            rcases List.mem_cons.mp hpair with rfl | hrest
            · exact ih hholds.of_succ
            · exact hholds.of_succ pair hrest
          apply ruleLang_succ_le haltsB
          intro bt hbt
          obtain ⟨alt, halt, hin⟩ := anyAlt_true (everyAlt_true htrue bt hbt)
          exact le_trans (h.alts hin hpair) (le_language haltsA halt)
    · cases htrue

theorem unfoldedContains_succ {ra : String} {b : Element}
    (htrue : unfoldedContains g (fuel + 1) ra b assumed depth = some true)
    (hholds : Holds g single m assumed) :
    b.lang g single (ruleLang g single m) ≤ g.language single ra := by
  rw [unfoldedContains] at htrue
  split at htrue
  · cases htrue
  · split at htrue
    · cases htrue
    · rename_i altsA haltsA
      obtain ⟨alt, halt, hin⟩ := anyAlt_true htrue
      have hle := h.alts hin hholds
      rw [lang_new] at hle
      exact le_trans hle (le_language haltsA halt)

theorem unfoldedContained_succ {a : Element} {rb : String}
    (htrue : unfoldedContained g (fuel + 1) a rb assumed depth = some true)
    (hholds : Holds g single m assumed) :
    ruleLang g single m rb ≤ a.lang g single (g.language single) := by
  rw [unfoldedContained] at htrue
  split at htrue
  · cases htrue
  · split at htrue
    · cases htrue
    · rename_i altsB haltsB
      cases m with
      | zero => exact ruleLang_zero_le rb _
      | succ m =>
        apply ruleLang_succ_le haltsB
        intro bt hbt
        have hle := h.alts (everyAlt_true htrue bt hbt) hholds.of_succ
        rwa [lang_new] at hle

end Sound

theorem sound (fuel : Nat) : Sound g single fuel := by
  induction fuel with
  | zero =>
    constructor <;> intros <;> simp_all [altContains, seqContains, elemContains,
      terminalContains, ruleContains, unfoldedContains, unfoldedContained]
  | succ fuel ih =>
    exact {
      alts := ih.altContains_succ
      seqs := ih.seqContains_succ
      elems := ih.elemContains_succ
      terminals := ih.terminalContains_succ
      rules := ih.ruleContains_succ
      unfoldeds := ih.unfoldedContains_succ
      unfolding := ih.unfoldedContained_succ }

/-- A comparison without assumptions that answers yes is right. -/
theorem language_le_of_altContains {fuel depth : Nat}
    (h : altContains g fuel a b [] depth = some true) :
    b.language g single ≤ a.language g single := by
  intro w hw
  obtain ⟨m, hm⟩ := Alternative.exists_depth b w hw
  exact (sound fuel).alts h (by intro pair hpair; cases hpair) hm

end Sound

end Wado.Gale
