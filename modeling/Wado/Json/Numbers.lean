/-
What the scanner of JSON's numbers passes over: a number of the grammar, with all the bytes
that could go on with it.
-/
import Wado.Json.Strings

namespace Wado.Json

open ExceptSteps List

/-- No digit stands at the start of `tail`. -/
def EndsDigits (tail : List UInt8) : Prop := ∀ b ∈ tail.head?, ¬ Digit b

section Grammar

theorem digitValue_le {b : UInt8} : digitValue b ≤ 9 ↔ Digit b := by
  have hlt := b.toNat_lt
  simp only [digitValue, Digit, UInt32.le_iff_toNat_le, UInt8.le_iff_toNat_le, UInt32.toNat_sub,
    UInt8.toNat_toUInt32, UInt8.reduceToNat, UInt32.reduceToNat]
  omega

theorem digitValue_gt {b : UInt8} : digitValue b > 9 ↔ ¬ Digit b := by
  rw [← digitValue_le, gt_iff_lt, UInt32.not_le]

theorem FracPart.head {frac : List UInt8} (h : FracPart frac) :
    frac = [] ∨ ∃ bs, frac = point :: bs := by
  cases h with
  | none => exact .inl rfl
  | some _ _ => exact .inr ⟨_, rfl⟩

theorem ExpPart.head {exp : List UInt8} (h : ExpPart exp) :
    exp = [] ∨ ∃ e bs, exp = e :: bs ∧ (e = letter 'e' ∨ e = letter 'E') := by
  cases h with
  | none => exact .inl rfl
  | some he _ _ _ => exact .inr ⟨_, _, rfl, he⟩

theorem ExpPart.endsDigits {exp tail : List UInt8} (h : ExpPart exp) (htail : EndsDigits tail) :
    EndsDigits (exp ++ tail) := by
  rcases h.head with rfl | ⟨e, bs, rfl, he⟩
  · exact htail
  · rintro b ⟨⟩
    unfold Digit
    rcases he with rfl | rfl
    · decide
    · decide

theorem FracPart.endsDigits {frac tail : List UInt8} (h : FracPart frac)
    (htail : EndsDigits tail) : EndsDigits (frac ++ tail) := by
  rcases h.head with rfl | ⟨bs, rfl⟩
  · exact htail
  · rintro b ⟨⟩
    decide

end Grammar

namespace JsonDeserializer

section Digits

/-- The digits at the start of `rest`. -/
def digitsAt (rest : List UInt8) : List UInt8 := rest.takeWhile fun b => digitValue b ≤ 9

theorem digitsAt_cons_of_digit {b : UInt8} (hb : Digit b) (rest : List UInt8) :
    digitsAt (b :: rest) = b :: digitsAt rest := by
  rw [digitsAt, takeWhile_cons_of_pos (by simpa using digitValue_le.mpr hb)]
  rfl

theorem digitsAt_of_endsDigits {rest : List UInt8} (h : EndsDigits rest) : digitsAt rest = [] := by
  cases rest with
  | nil => rfl
  | cons b rest =>
    have hb : ¬ digitValue b ≤ 9 := fun hle => h b rfl (digitValue_le.mp hle)
    rw [digitsAt, takeWhile_cons_of_neg (by simpa using hb)]

theorem digitsAt_append {ds tail : List UInt8} (hds : ∀ b ∈ ds, Digit b)
    (htail : EndsDigits tail) : digitsAt (ds ++ tail) = ds := by
  induction ds with
  | nil => exact digitsAt_of_endsDigits htail
  | cons b ds ih =>
    rw [cons_append, digitsAt_cons_of_digit (hds b (mem_cons_self ..)),
      ih fun c hc => hds c (mem_cons_of_mem _ hc)]

/-- The digits at the start of an input end before a byte that is none. -/
theorem exists_digitsAt (rest : List UInt8) :
    ∃ ds tail, rest = ds ++ tail ∧ (∀ b ∈ ds, Digit b) ∧ EndsDigits tail ∧ digitsAt rest = ds := by
  induction rest with
  | nil => exact ⟨[], [], rfl, by simp, by simp [EndsDigits], rfl⟩
  | cons b rest ih =>
    by_cases hb : Digit b
    · obtain ⟨ds, tail, hrest, hds, htail, hat⟩ := ih
      refine ⟨b :: ds, tail, by rw [hrest]; rfl, ?_, htail, ?_⟩
      · intro c hc
        rcases mem_cons.mp hc with rfl | hc
        · exact hb
        · exact hds c hc
      · rw [digitsAt_cons_of_digit hb, hat]
    · have hends : EndsDigits (b :: rest) := by
        rintro c ⟨⟩
        exact hb
      exact ⟨[], b :: rest, rfl, by simp, hends, digitsAt_of_endsDigits hends⟩

theorem digits_passes (self : JsonDeserializer) :
    ∃ ds s, (∀ b ∈ ds, Digit b) ∧ EndsDigits s.rest ∧ Passes self ds s ∧
      digitsAt self.rest = ds := by
  obtain ⟨ds, tail, hrest, hds, htail, hat⟩ := exists_digitsAt self.rest
  obtain ⟨hpasses, hafter⟩ := Passes.of_rest hrest
  exact ⟨ds, _, hds, hafter ▸ htail, hpasses, hat⟩

theorem digitsAt_of_passes {self s : JsonDeserializer} {ds : List UInt8} (hds : ∀ b ∈ ds, Digit b)
    (hends : EndsDigits s.rest) (h : Passes self ds s) : digitsAt self.rest = ds := by
  rw [h.rest, digitsAt_append hds hends]

theorem accumulate_count (cap : Nat) (digits : UInt64) (rest : List UInt8) :
    (accumulate cap digits rest).2 = min cap (digitsAt rest).length := by
  induction cap generalizing digits rest with
  | zero =>
    unfold accumulate
    simp
  | succ cap ih =>
    cases rest with
    | nil => simp [accumulate, digitsAt]
    | cons b rest =>
      by_cases hb : Digit b
      · rw [digitsAt_cons_of_digit hb, accumulate, if_neg fun hgt => digitValue_gt.mp hgt hb]
        dsimp only
        rw [ih, length_cons]
        omega
      · have hends : EndsDigits (b :: rest) := by
          rintro c ⟨⟩
          exact hb
        rw [digitsAt_of_endsDigits hends, accumulate, if_pos (digitValue_gt.mpr hb)]
        rfl

theorem dropDigits_count (inexact : Bool) (rest : List UInt8) :
    (dropDigits inexact rest).2 = (digitsAt rest).length := by
  induction rest generalizing inexact with
  | nil => rfl
  | cons b rest ih =>
    by_cases hb : Digit b
    · rw [digitsAt_cons_of_digit hb, dropDigits, if_neg fun hgt => digitValue_gt.mp hgt hb]
      dsimp only
      rw [ih, length_cons]
    · have hends : EndsDigits (b :: rest) := by
        rintro c ⟨⟩
        exact hb
      rw [digitsAt_of_endsDigits hends, dropDigits, if_pos (digitValue_gt.mpr hb)]
      rfl

theorem exponentDigits_count (exp : Int) (rest : List UInt8) :
    (exponentDigits exp rest).2 = (digitsAt rest).length := by
  induction rest generalizing exp with
  | nil => rfl
  | cons b rest ih =>
    by_cases hb : Digit b
    · rw [digitsAt_cons_of_digit hb, exponentDigits, if_neg fun hgt => digitValue_gt.mp hgt hb]
      dsimp only
      rw [ih, length_cons]
    · have hends : EndsDigits (b :: rest) := by
        rintro c ⟨⟩
        exact hb
      rw [digitsAt_of_endsDigits hends, exponentDigits, if_pos (digitValue_gt.mpr hb)]
      rfl

theorem digitsAt_drop {rest : List UInt8} {n : Nat} (hn : n ≤ (digitsAt rest).length) :
    (digitsAt (rest.drop n)).length = (digitsAt rest).length - n := by
  obtain ⟨ds, tail, hrest, hds, htail, hat⟩ := exists_digitsAt rest
  rw [hat] at hn ⊢
  rw [hrest, drop_append_of_le_length hn,
    digitsAt_append (fun b hb => hds b (mem_of_mem_drop hb)) htail, length_drop]

/-- However many digits are kept, the run is all there are. -/
theorem digitRun_len (cap : Nat) (digits : UInt64) (inexact : Bool) (rest : List UInt8) :
    (digitRun cap digits inexact rest).len = (digitsAt rest).length := by
  have hcount := accumulate_count cap digits rest
  have hdrop := @digitsAt_drop rest (accumulate cap digits rest).2 (by omega)
  unfold digitRun
  dsimp only
  split_ifs with hcond
  · dsimp only
    rw [dropDigits_count, hdrop]
    omega
  · dsimp only
    rw [not_or] at hcond
    omega

end Digits

section Parts

variable {self s : JsonDeserializer}

theorem scanSign_eq_ok {lead first : UInt8} {neg : Bool} (hlead : self.rest.head? = some lead) :
    self.scanSign lead = .ok ((neg, first), s) ↔ s.rest.head? = some first ∧
        (lead = minus ∧ neg = true ∧ Passes self [minus] s ∨
          lead ≠ minus ∧ neg = false ∧ s = self) := by
  unfold scanSign
  by_cases hminus : lead = minus
  · rw [if_pos hminus]
    have hpasses : Passes self [minus] (self.after 1) := Passes.head (hminus ▸ hlead)
    constructor
    · intro h
      cases hrest : (self.after 1).rest with
      | nil =>
        simp only [hrest] at h
        cases h
      | cons b rest =>
        simp only [hrest] at h
        cases h
        exact ⟨by rw [hrest]; rfl, .inl ⟨hminus, rfl, hpasses⟩⟩
    · rintro ⟨hfirst, ⟨_, rfl, h⟩ | ⟨hne, _⟩⟩
      · obtain rfl := hpasses.unique h
        cases hrest : (self.after 1).rest with
        | nil => simp [hrest] at hfirst
        | cons b rest =>
          obtain rfl : b = first := by simpa [hrest] using hfirst
          simp only [hrest]
      · exact absurd hminus hne
  · rw [if_neg hminus]
    constructor
    · intro h
      cases h
      exact ⟨hlead, .inr ⟨hminus, rfl, rfl⟩⟩
    · rintro ⟨hfirst, ⟨h, _⟩ | ⟨_, rfl, rfl⟩⟩
      · exact absurd h hminus
      · rw [hlead] at hfirst
        cases hfirst
        rfl

/-- A leading zero and the digits after it are the integer part. -/
theorem scanInt_eq_ok {first : UInt8} (hfirst : self.rest.head? = some first) :
    (∃ t, self.scanLeadingZero first = .ok t ∧ s = t.after (digitsAt t.rest).length) ↔
      ∃ int, IntPart int ∧ Passes self int s ∧ EndsDigits s.rest := by
  have hnext : ∀ t : JsonDeserializer, t.rest.head?.any (fun b => digitValue b ≤ 9) = true ↔
      ¬ EndsDigits t.rest := by
    intro t
    cases ht : t.rest with
    | nil => simp [EndsDigits]
    | cons b rest => simp [EndsDigits, digitValue_le]
  have hone := Passes.head hfirst
  unfold scanLeadingZero
  constructor
  · rintro ⟨t, h, rfl⟩
    by_cases hdigit : Digit first
    · rw [if_neg fun hgt => digitValue_gt.mp hgt hdigit] at h
      by_cases hzero : first = zero
      · rw [if_pos hzero] at h
        by_cases hends : EndsDigits (self.after 1).rest
        · rw [if_neg fun hany => (hnext _).mp hany hends] at h
          cases h
          rw [digitsAt_of_endsDigits hends]
          exact ⟨[zero], .zero, hzero ▸ hone, hends⟩
        · rw [if_pos ((hnext _).mpr hends)] at h
          cases h
      · rw [if_neg hzero] at h
        cases h
        obtain ⟨ds, u, hds, hends, hpasses, hat⟩ := self.digits_passes
        rw [hat, ← hpasses.eq]
        refine ⟨ds, ?_, hpasses, hends⟩
        cases ds with
        | nil =>
          rw [hpasses.rest] at hfirst
          exact absurd hdigit (hends first (by simpa [hpasses.rest] using hfirst))
        | cons b ds =>
          obtain rfl : b = first := by simpa [hpasses.rest] using hfirst
          exact .digits hdigit hzero fun c hc => hds c (mem_cons_of_mem _ hc)
    · rw [if_pos (digitValue_gt.mpr hdigit)] at h
      cases h
  · rintro ⟨int, hint, hpasses, hends⟩
    cases hint with
    | zero =>
      obtain rfl := Option.some.inj (hpasses.head?.symm.trans hfirst)
      obtain rfl := hone.unique hpasses
      refine ⟨self.after 1, ?_, by rw [digitsAt_of_endsDigits hends]; rfl⟩
      rw [if_neg (by decide), if_pos rfl, if_neg fun hany => (hnext _).mp hany hends]
    | digits hb hzero hbs =>
      obtain rfl := Option.some.inj (hpasses.head?.symm.trans hfirst)
      refine ⟨self, ?_, ?_⟩
      · rw [if_neg fun hgt => digitValue_gt.mp hgt hb, if_neg hzero]
      · rw [digitsAt_of_passes (by
          intro c hc
          rcases mem_cons.mp hc with rfl | hc
          · exact hb
          · exact hbs c hc) hends hpasses, hpasses.eq]

theorem zeros_le_digitsAt (rest : List UInt8) :
    (rest.takeWhile (· = zero)).length ≤ (digitsAt rest).length := by
  induction rest with
  | nil => rfl
  | cons b rest ih =>
    by_cases hb : b = zero
    · have hdigit : Digit b := by
        unfold Digit
        rw [hb]
        decide
      rw [digitsAt_cons_of_digit hdigit, takeWhile_cons_of_pos (by simpa using hb)]
      exact Nat.succ_le_succ ih
    · rw [takeWhile_cons_of_neg (by simpa using hb)]
      exact Nat.zero_le _

/-- The zeros that lead a fraction and the digits after them are all its digits. -/
theorem fraction_len (int : DigitRun) (rest : List UInt8) {zeros : Nat}
    (hzeros : zeros = if int.digits = 0 then (rest.takeWhile (· = zero)).length else 0) :
    zeros + (digitRun (digitsMax - int.kept) int.digits int.inexact (rest.drop zeros)).len =
      (digitsAt rest).length := by
  have hle : zeros ≤ (digitsAt rest).length := by
    rw [hzeros]
    split_ifs
    · exact zeros_le_digitsAt rest
    · exact Nat.zero_le _
  rw [digitRun_len, digitsAt_drop hle]
  omega

theorem scanFraction_eq_ok {int : DigitRun} (hends : EndsDigits self.rest) :
    (∃ f, self.scanFraction int = .ok (f, s)) ↔
      ∃ frac, FracPart frac ∧ Passes self frac s ∧ EndsDigits s.rest ∧
        (frac = [] → s.rest.head? ≠ some point) := by
  unfold scanFraction
  by_cases hpoint : self.rest.head? = some point
  · have hone := Passes.head hpoint
    rw [if_pos hpoint]
    dsimp only
    rw [fraction_len int (self.after 1).rest rfl]
    obtain ⟨ds, t, hds, hends', hpasses, hat⟩ := (self.after 1).digits_passes
    rw [hat, ← hpasses.eq]
    constructor
    · rintro ⟨f, h⟩
      by_cases hne : ds = []
      · rw [if_pos (by simp [hne])] at h
        unfold tokenStopError fail at h
        split_ifs at h
      · rw [if_neg (by simpa using hne)] at h
        obtain rfl := congrArg Prod.snd (Except.ok.inj h)
        exact ⟨point :: ds, .some hne hds, hone.trans hpasses, hends', fun h => by cases h⟩
    · rintro ⟨frac, hfrac, hlast, hend, hnil⟩
      cases hfrac with
      | none =>
        obtain rfl := (Passes.nil self).unique hlast
        exact absurd hpoint (hnil rfl)
      | some hne hbs =>
        obtain ⟨u, hu, hlast⟩ := Passes.split (a := [point]) hlast
        obtain rfl := hone.unique hu
        obtain rfl := (digitsAt_of_passes hbs hend hlast).symm.trans hat
        obtain rfl := hpasses.unique hlast
        rw [if_neg (by simpa using hne)]
        exact ⟨_, rfl⟩
  · rw [if_neg hpoint]
    constructor
    · rintro ⟨f, h⟩
      obtain rfl := congrArg Prod.snd (Except.ok.inj h)
      exact ⟨[], .none, Passes.nil self, hends, fun _ => hpoint⟩
    · rintro ⟨frac, hfrac, hlast, _, _⟩
      rcases hfrac.head with rfl | ⟨bs, rfl⟩
      · obtain rfl := (Passes.nil self).unique hlast
        exact ⟨_, rfl⟩
      · exact absurd hlast.head? hpoint

/-- The sign that an exponent may start with, to the digit after it. -/
theorem exponentSign_passes (self : JsonDeserializer) :
    ∃ sign t, (sign = [] ∨ sign = [minus] ∨ sign = [plus]) ∧ Passes self sign t ∧
      (∀ u sign', (sign' = [] ∨ sign' = [minus] ∨ sign' = [plus]) → Passes self sign' u →
        (∃ b ∈ u.rest.head?, Digit b) → t = u) ∧
      (if self.rest.head? = some minus ∨ self.rest.head? = some plus then self.after 1 else self) =
        t := by
  have hnot : ¬ Digit minus ∧ ¬ Digit plus := by decide
  by_cases hsigned : self.rest.head? = some minus ∨ self.rest.head? = some plus
  · obtain ⟨c, hc, hhead⟩ : ∃ c, (c = minus ∨ c = plus) ∧ self.rest.head? = some c := by
      rcases hsigned with h | h
      · exact ⟨_, .inl rfl, h⟩
      · exact ⟨_, .inr rfl, h⟩
    refine ⟨[c], self.after 1, ?_, Passes.head hhead, ?_, if_pos hsigned⟩
    · rcases hc with rfl | rfl
      · exact .inr (.inl rfl)
      · exact .inr (.inr rfl)
    · rintro u sign' (rfl | rfl | rfl) hpasses ⟨b, hb, hdigit⟩
      · obtain rfl := (Passes.nil self).unique hpasses
        obtain rfl := Option.some.inj (hhead.symm.trans hb)
        rcases hc with rfl | rfl
        · exact absurd hdigit hnot.1
        · exact absurd hdigit hnot.2
      · exact hpasses.eq.symm
      · exact hpasses.eq.symm
  · refine ⟨[], self, .inl rfl, Passes.nil self, ?_, if_neg hsigned⟩
    rintro u sign' (rfl | rfl | rfl) hpasses _
    · exact hpasses.eq.symm
    · exact absurd (.inl hpasses.head?) hsigned
    · exact absurd (.inr hpasses.head?) hsigned

theorem scanExponent_eq_ok (hends : EndsDigits self.rest) : (∃ e, self.scanExponent = .ok (e, s)) ↔
      ∃ exp, ExpPart exp ∧ Passes self exp s ∧ EndsDigits s.rest ∧
        (exp = [] → ∀ b ∈ s.rest.head?, b ≠ letter 'e' ∧ b ≠ letter 'E') := by
  unfold scanExponent
  by_cases hmark : self.rest.head? = some (letter 'e') ∨ self.rest.head? = some (letter 'E')
  · rw [if_pos hmark]
    dsimp only
    obtain ⟨e, he, hhead⟩ : ∃ e, (e = letter 'e' ∨ e = letter 'E') ∧ self.rest.head? = some e := by
      rcases hmark with h | h
      · exact ⟨_, .inl rfl, h⟩
      · exact ⟨_, .inr rfl, h⟩
    have hone := Passes.head hhead
    obtain ⟨sign, t, hsign, hpasses, hunsigned, ht⟩ := exponentSign_passes (self.after 1)
    rw [ht, exponentDigits_count]
    obtain ⟨ds, u, hds, hends', hdigits, hat⟩ := t.digits_passes
    rw [hat, ← hdigits.eq]
    constructor
    · rintro ⟨f, h⟩
      by_cases hne : ds = []
      · rw [if_pos (by simp [hne])] at h
        unfold tokenStopError fail at h
        split_ifs at h
      · rw [if_neg (by simpa using hne)] at h
        obtain rfl := congrArg Prod.snd (Except.ok.inj h)
        exact ⟨e :: (sign ++ ds), .some he hsign hne hds, hone.trans (hpasses.trans hdigits),
          hends', fun h => by cases h⟩
    · rintro ⟨exp, hexp, hlast, hend, hnil⟩
      cases hexp with
      | none =>
        obtain rfl := (Passes.nil self).unique hlast
        rcases he with rfl | rfl
        · exact absurd rfl (hnil rfl _ hhead).1
        · exact absurd rfl (hnil rfl _ hhead).2
      | @some e' sign' bs he' hsign' hne hbs =>
        obtain ⟨v, hv, hlast⟩ := Passes.split (a := [e']) hlast
        obtain rfl := Option.some.inj (hhead.symm.trans hv.head?)
        obtain rfl := hone.unique hv
        obtain ⟨w, hw, hlast⟩ := hlast.split
        obtain rfl := hunsigned w sign' hsign' hw (by
          obtain ⟨b, bs, rfl⟩ := exists_cons_of_ne_nil hne
          exact ⟨b, hlast.head?, hbs b (mem_cons_self ..)⟩)
        obtain rfl := (digitsAt_of_passes hbs hend hlast).symm.trans hat
        obtain rfl := hdigits.unique hlast
        rw [if_neg (by simpa using hne)]
        exact ⟨_, rfl⟩
  · rw [if_neg hmark]
    rw [not_or] at hmark
    constructor
    · rintro ⟨f, h⟩
      obtain rfl := congrArg Prod.snd (Except.ok.inj h)
      refine ⟨[], .none, Passes.nil self, hends, fun _ b hb => ?_⟩
      rw [Option.mem_def.mp hb, Option.some.injEq, Option.some.injEq] at hmark
      exact hmark
    · rintro ⟨exp, hexp, hlast, _, _⟩
      rcases hexp.head with rfl | ⟨e, bs, rfl, he⟩
      · obtain rfl := (Passes.nil self).unique hlast
        exact ⟨_, rfl⟩
      · rw [hlast.head?, Option.some.injEq, Option.some.injEq] at hmark
        rcases he with rfl | rfl
        · exact absurd rfl hmark.1
        · exact absurd rfl hmark.2

end Parts

section Numbers

variable {self s : JsonDeserializer}

/-- The scanner of numbers takes the numbers that the bytes after them do not go on with. -/
theorem scanNumberInto_eq_ok : (∃ n, self.scanNumberInto self.rest.head? = .ok (n, s)) ↔
      ∃ bytes, NumberAt s.rest bytes ∧ Passes self bytes s := by
  unfold scanNumberInto
  constructor
  · rintro ⟨n, h⟩
    cases hlead : self.rest.head? with
    | none =>
      rw [hlead] at h
      cases h
    | some lead =>
      rw [hlead] at h
      dsimp only at h
      obtain ⟨⟨⟨neg, first⟩, start⟩, hsign, h⟩ := bind_eq_ok.mp h
      obtain ⟨t, hzero, h⟩ := bind_eq_ok.mp h
      dsimp only at hzero h
      obtain ⟨⟨frac, u⟩, hfrac, h⟩ := bind_eq_ok.mp h
      obtain ⟨⟨exp, last⟩, hexp, h⟩ := bind_eq_ok.mp h
      obtain rfl := congrArg Prod.snd (Except.ok.inj h)
      rw [digitRun_len] at hfrac
      obtain ⟨hfirst, hsign⟩ := (scanSign_eq_ok hlead).mp hsign
      obtain ⟨int, hint, hpassInt, hends⟩ := (scanInt_eq_ok hfirst).mp ⟨t, hzero, rfl⟩
      obtain ⟨fracs, hfracs, hpassFrac, hends, hpoint⟩ :=
        (scanFraction_eq_ok hends).mp ⟨frac, hfrac⟩
      obtain ⟨exps, hexps, hpassExp, hends, hmark⟩ := (scanExponent_eq_ok hends).mp ⟨exp, hexp⟩
      have hrest := hpassInt.trans (hpassFrac.trans hpassExp)
      have hnext : exps = [] → ∀ b ∈ last.rest.head?, b ≠ letter 'e' ∧ b ≠ letter 'E' ∧
          (fracs = [] → b ≠ point) := by
        intro hnil b hb
        refine ⟨(hmark hnil b hb).1, (hmark hnil b hb).2, fun hnone hdot => ?_⟩
        rw [hnil] at hpassExp
        obtain rfl := (Passes.nil u).unique hpassExp
        exact hpoint hnone (hdot ▸ hb)
      rcases hsign with ⟨_, _, hsign⟩ | ⟨_, _, rfl⟩
      · exact ⟨_, .mk (.inr rfl) hint hfracs hexps hends hnext, hsign.trans hrest⟩
      · exact ⟨_, .mk (.inl rfl) hint hfracs hexps hends hnext, hrest⟩
  · rintro ⟨bytes, hnumber, hpasses⟩
    cases hnumber with
    | @mk sign int frac exp hsign hint hfrac hexp hdigit hnext =>
      obtain ⟨start, hpassSign, hpasses⟩ := hpasses.split
      obtain ⟨u, hpassInt, hpasses⟩ := hpasses.split
      obtain ⟨v, hpassFrac, hpassExp⟩ := hpasses.split
      have hendsExp : EndsDigits v.rest := by
        rw [hpassExp.rest]
        exact hexp.endsDigits hdigit
      have hendsInt : EndsDigits u.rest := by
        rw [hpassFrac.rest]
        exact hfrac.endsDigits hendsExp
      obtain ⟨first, hfirst, hdigitFirst⟩ : ∃ b, start.rest.head? = some b ∧ Digit b := by
        rw [hpassInt.rest]
        cases hint with
        | zero => exact ⟨zero, rfl, by decide⟩
        | digits hb _ _ => exact ⟨_, rfl, hb⟩
      obtain ⟨t, hzero, ht⟩ := (scanInt_eq_ok hfirst).mpr ⟨int, hint, hpassInt, hendsInt⟩
      have hpoint : frac = [] → v.rest.head? ≠ some point := by
        intro hnil hdot
        rcases hexp.head with rfl | ⟨e, bs, rfl, he⟩
        · obtain rfl := (Passes.nil v).unique hpassExp
          exact (hnext rfl point hdot).2.2 hnil rfl
        · rw [hpassExp.head?] at hdot
          cases hdot
          exact absurd he (by decide)
      obtain ⟨f, hscanFrac⟩ := (@scanFraction_eq_ok u v (digitRun digitsMax 0 false t.rest)
        hendsInt).mpr ⟨frac, hfrac, hpassFrac, hendsExp, hpoint⟩
      obtain ⟨x, hscanExp⟩ := (scanExponent_eq_ok hendsExp).mpr ⟨exp, hexp, hpassExp, hdigit,
        fun hnil b hb => ⟨(hnext hnil b hb).1, (hnext hnil b hb).2.1⟩⟩
      obtain ⟨lead, neg, hlead, hscanSign⟩ : ∃ lead neg, self.rest.head? = some lead ∧
          self.scanSign lead = .ok ((neg, first), start) := by
        rcases hsign with rfl | rfl
        · obtain rfl := (Passes.nil self).unique hpassSign
          refine ⟨first, false, hfirst, (scanSign_eq_ok hfirst).mpr ⟨hfirst, .inr ⟨?_, rfl, rfl⟩⟩⟩
          rintro rfl
          unfold Digit at hdigitFirst
          exact absurd hdigitFirst (by decide)
        · exact ⟨minus, true, hpassSign.head?, (scanSign_eq_ok hpassSign.head?).mpr
            ⟨hfirst, .inl ⟨rfl, rfl, hpassSign⟩⟩⟩
      rw [hlead]
      dsimp only
      rw [bind_of_eq_ok hscanSign]
      dsimp only
      rw [bind_of_eq_ok hzero, digitRun_len, ← ht, bind_of_eq_ok hscanFrac]
      dsimp only
      rw [bind_of_eq_ok hscanExp]
      exact ⟨_, rfl⟩

theorem skipNumber_eq_ok :
    self.skipNumber = .ok s ↔ ∃ bytes, NumberAt s.rest bytes ∧ Passes self bytes s := by
  rw [← scanNumberInto_eq_ok, skipNumber]
  constructor
  · intro h
    obtain ⟨⟨n, t⟩, hscan, h⟩ := bind_eq_ok.mp h
    cases h
    exact ⟨n, hscan⟩
  · rintro ⟨n, hscan⟩
    rw [bind_of_eq_ok hscan]
    rfl

end Numbers

end JsonDeserializer

end Wado.Json
