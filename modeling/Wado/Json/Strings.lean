/-
The string readers and the string skipper pass over the same strings: those of the grammar.
-/
import Wado.Json.Grammar

namespace Wado.Json

open ExceptSteps List

variable {b : UInt8}

variable {rest : List UInt8}

section Utf8

theorem isCharStart_eq_false : isCharStart b = false ↔ Tail b :=
  forall_byte (p := fun b => isCharStart b = false ↔ Tail b) (by decide) b

theorem utf8SecondByteOk_eq {a b : UInt8} :
    utf8SecondByteOk a b = true ↔ Tail b ∧ (a = 0xe0 → 0xa0 ≤ b) ∧ (a = 0xed → b ≤ 0x9f) ∧
      (a = 0xf0 → 0x90 ≤ b) ∧ (a = 0xf4 → b ≤ 0x8f) := by
  by_cases htail : Tail b
  · have hstart : isCharStart b = false := isCharStart_eq_false.mpr htail
    unfold utf8SecondByteOk
    rw [hstart, if_neg (by decide)]
    by_cases h0 : a = 0xe0
    · simp [h0, htail]
    by_cases h1 : a = 0xed
    · simp only [h1, htail, true_and]
      simp only [UInt8.lt_iff_toNat_lt, UInt8.le_iff_toNat_le, ← UInt8.toNat_inj, UInt8.reduceToNat]
      simp
      omega
    by_cases h2 : a = 0xf0
    · simp [h2, htail]
    by_cases h3 : a = 0xf4
    · simp [h3, htail]
    simp [h0, h1, h2, h3, htail]
  · have hstart : isCharStart b = true := by
      rw [← Bool.not_eq_false, isCharStart_eq_false]
      exact htail
    simp [utf8SecondByteOk, hstart, htail]

/-- A sequence that has a length is a character. -/
theorem unescaped_of_utf8SequenceLen (hb : 0x80 ≤ b) (h : 0 < utf8SequenceLen (b :: rest)) :
    ∃ c tail, b :: rest = c ++ tail ∧ Unescaped c ∧ utf8SequenceLen (b :: rest) = c.length := by
  unfold utf8SequenceLen at h ⊢
  dsimp only at h ⊢
  rw [if_neg (UInt8.not_lt.mpr hb)] at h ⊢
  by_cases hc2 : b < 0xc2
  · rw [if_pos hc2] at h
    exact absurd h (by decide)
  rw [if_neg hc2] at h ⊢
  cases rest with
  | nil =>
    split_ifs at h <;> simp at h
  | cons b1 rest =>
    by_cases he0 : b < 0xe0
    · rw [if_pos he0] at h ⊢
      by_cases hok : utf8SecondByteOk b b1 = true
      · refine ⟨[b, b1], rest, rfl, .two ?_ (utf8SecondByteOk_eq.mp hok).1, by simp [hok]⟩
        simp only [UInt8.le_iff_toNat_le, UInt8.lt_iff_toNat_lt, UInt8.reduceToNat] at *
        omega
      · simp [hok] at h
    rw [if_neg he0] at h ⊢
    by_cases hf0 : b < 0xf0
    · rw [if_pos hf0] at h ⊢
      by_cases hok : utf8SecondByteOk b b1 = true
      · cases rest with
        | nil => simp [hok] at h
        | cons b2 rest =>
          by_cases hb2 : isCharStart b2 = true
          · simp [hok, hb2] at h
          · have htail := isCharStart_eq_false.mp (by simpa using hb2)
            refine ⟨[b, b1, b2], rest, rfl, .three ?_ htail, by simp [hok, hb2]⟩
            have hsecond := utf8SecondByteOk_eq.mp hok
            simp only [Tail, UInt8.le_iff_toNat_le, UInt8.lt_iff_toNat_lt, ← UInt8.toNat_inj,
              UInt8.reduceToNat] at *
            omega
      · simp [hok] at h
    rw [if_neg hf0] at h ⊢
    by_cases hf5 : b < 0xf5
    · rw [if_pos hf5] at h ⊢
      by_cases hok : utf8SecondByteOk b b1 = true
      · cases rest with
        | nil => simp [hok] at h
        | cons b2 rest =>
          by_cases hb2 : isCharStart b2 = true
          · simp [hok, hb2] at h
          · cases rest with
            | nil => simp [hok, hb2] at h
            | cons b3 rest =>
              by_cases hb3 : isCharStart b3 = true
              · simp [hok, hb2, hb3] at h
              · have htail2 := isCharStart_eq_false.mp (by simpa using hb2)
                have htail3 := isCharStart_eq_false.mp (by simpa using hb3)
                refine ⟨[b, b1, b2, b3], rest, rfl, .four ?_ htail2 htail3, by simp [hok, hb2, hb3]⟩
                have hsecond := utf8SecondByteOk_eq.mp hok
                simp only [Tail, UInt8.le_iff_toNat_le, UInt8.lt_iff_toNat_lt,
                  ← UInt8.toNat_inj, UInt8.reduceToNat] at *
                omega
      · simp [hok] at h
    · rw [if_neg hf5] at h
      exact absurd h (by decide)

theorem utf8SequenceLen_of_unescaped {c : List UInt8} (hb : 0x80 ≤ b)
    (h : Unescaped (b :: c)) (tail : List UInt8) : utf8SequenceLen (b :: (c ++ tail)) =
      (b :: c).length := by
  have hnot : ¬ b < 0x80 := UInt8.not_lt.mpr hb
  cases h with
  | one ha hquote hslash =>
    exfalso
    simp only [UInt8.le_iff_toNat_le, UInt8.reduceToNat] at *
    omega
  | @two _ b1 ha hb1 =>
    have hok : utf8SecondByteOk b b1 = true := by
      rw [utf8SecondByteOk_eq]
      simp only [Tail, UInt8.le_iff_toNat_le, ← UInt8.toNat_inj, UInt8.reduceToNat] at *
      omega
    have hc2 : ¬ b < 0xc2 := UInt8.not_lt.mpr ha.1
    have he0 : b < 0xe0 := UInt8.lt_of_le_of_lt ha.2 (by decide)
    simp [utf8SequenceLen, hnot, hc2, he0, hok]
  | @three _ b1 b2 hab hb2 =>
    have hbounds : utf8SecondByteOk b b1 = true ∧ ¬ b < 0xc2 ∧ ¬ b < 0xe0 ∧ b < 0xf0 := by
      rw [utf8SecondByteOk_eq]
      simp only [Tail, UInt8.le_iff_toNat_le, UInt8.lt_iff_toNat_lt, ← UInt8.toNat_inj,
        UInt8.reduceToNat] at *
      omega
    obtain ⟨hok, hc2, he0, hf0⟩ := hbounds
    have hstart : isCharStart b2 = false := isCharStart_eq_false.mpr hb2
    simp [utf8SequenceLen, hnot, hc2, he0, hf0, hok, hstart]
  | @four _ b1 b2 b3 hab hb2 hb3 =>
    have hbounds : utf8SecondByteOk b b1 = true ∧ ¬ b < 0xc2 ∧ ¬ b < 0xe0 ∧ ¬ b < 0xf0 ∧
        b < 0xf5 := by
      rw [utf8SecondByteOk_eq]
      simp only [Tail, UInt8.le_iff_toNat_le, UInt8.lt_iff_toNat_lt, ← UInt8.toNat_inj,
        UInt8.reduceToNat] at *
      omega
    obtain ⟨hok, hc2, he0, hf0, hf5⟩ := hbounds
    have hstart2 : isCharStart b2 = false := isCharStart_eq_false.mpr hb2
    have hstart3 : isCharStart b3 = false := isCharStart_eq_false.mpr hb3
    simp [utf8SequenceLen, hnot, hc2, he0, hf0, hf5, hok, hstart2, hstart3]

end Utf8

variable {fuel : Nat} {self : JsonDeserializer} {self s : JsonDeserializer}

section Runs

open JsonDeserializer

/-- Characters that stand for themselves. -/
inductive Run : List UInt8 → Prop where
  | nil : Run []
  | cons {c run : List UInt8} (hc : Unescaped c) (hrun : Run run) : Run (c ++ run)

/-- What ends a run: its end, a quote, a backslash or a control character. -/
def EndsRun (tail : List UInt8) : Prop :=
  ∀ b ∈ tail.head?, b = quote ∨ b = backslash ∨ b < 0x20

theorem printable_iff : b - 0x20 < 0x60 ↔ 0x20 ≤ b ∧ b ≤ 0x7f := by
  have hlt := b.toNat_lt
  simp only [UInt8.lt_iff_toNat_lt, UInt8.le_iff_toNat_le, UInt8.toNat_sub, UInt8.reduceToNat]
  omega

theorem scanStringRunFrom_false (fuel len : Nat) (rest : List UInt8) :
    (scanStringRunFrom fuel len false rest).valid = false := by
  induction fuel generalizing len rest with
  | zero => rfl
  | succ fuel ih =>
    cases rest with
    | nil => rfl
    | cons b rest =>
      simp only [scanStringRunFrom]
      split_ifs
      · rfl
      · exact ih _ _
      · rfl
      · exact ih _ _
      · exact ih _ _

/-- A valid scan passed over a run. -/
theorem run_of_scan {fuel len : Nat} (hfuel : rest.length < fuel)
    (hvalid : (scanStringRunFrom fuel len true rest).valid = true) :
    ∃ run tail, rest = run ++ tail ∧ Run run ∧ EndsRun tail ∧
      scanStringRunFrom fuel len true rest = ⟨len + run.length, tail.head?, true⟩ := by
  induction fuel generalizing len rest with
  | zero => exact absurd hfuel (Nat.not_lt_zero _)
  | succ fuel ih =>
    cases rest with
    | nil => exact ⟨[], [], rfl, .nil, by simp [EndsRun], rfl⟩
    | cons b rest =>
      simp only [scanStringRunFrom] at hvalid ⊢
      by_cases hprint : b - 0x20 < 0x60
      · rw [if_pos hprint] at hvalid ⊢
        by_cases hstop : b = quote ∨ b = backslash
        · rw [if_pos hstop]
          refine ⟨[], b :: rest, rfl, .nil, ?_, rfl⟩
          rintro _ ⟨⟩
          exact hstop.imp_right .inl
        · rw [if_neg hstop] at hvalid ⊢
          obtain ⟨run, tail, hrest, hrun, hends, hscan⟩ :=
            ih (Nat.lt_of_succ_lt_succ hfuel) hvalid
          have hchar : Unescaped [b] :=
            .one (printable_iff.mp hprint) (fun h => hstop (.inl h)) fun h => hstop (.inr h)
          refine ⟨b :: run, tail, by rw [hrest]; rfl, .cons hchar hrun, hends, ?_⟩
          rw [hscan, length_cons, Nat.add_assoc, Nat.add_comm 1]
      · rw [if_neg hprint] at hvalid ⊢
        by_cases hcontrol : b < 0x20
        · rw [if_pos hcontrol]
          refine ⟨[], b :: rest, rfl, .nil, ?_, rfl⟩
          rintro _ ⟨⟩
          exact .inr (.inr hcontrol)
        · rw [if_neg hcontrol] at hvalid ⊢
          by_cases hlen : utf8SequenceLen (b :: rest) ≤ 0
          · rw [if_pos hlen, scanStringRunFrom_false] at hvalid
            cases hvalid
          · rw [if_neg hlen] at hvalid ⊢
            have hhigh : 0x80 ≤ b := by
              rw [printable_iff] at hprint
              simp only [UInt8.le_iff_toNat_le, UInt8.lt_iff_toNat_lt, UInt8.reduceToNat] at *
              omega
            obtain ⟨c, tail', hsplit, hchar, hc⟩ :=
              unescaped_of_utf8SequenceLen hhigh (Int.not_le.mp hlen)
            rw [hc, Int.toNat_natCast, hsplit, drop_left] at hvalid ⊢
            have hpos : 0 < c.length := by
              rw [hc] at hlen
              omega
            have hshort : tail'.length < fuel := by
              have hlength := congrArg List.length hsplit
              rw [length_append, length_cons] at hlength
              rw [length_cons] at hfuel
              omega
            obtain ⟨run, tail, hrest, hrun, hends, hscan⟩ := ih hshort hvalid
            refine ⟨c ++ run, tail, by rw [hrest, append_assoc], .cons hchar hrun, hends, ?_⟩
            rw [hscan, length_append, Nat.add_assoc]

/-- The scan of a run takes all of it. -/
theorem scan_of_run {run tail : List UInt8} (hrun : Run run) (hends : EndsRun tail)
    (len : Nat) (hfuel : (run ++ tail).length < fuel) :
    scanStringRunFrom fuel len true (run ++ tail) = ⟨len + run.length, tail.head?, true⟩ := by
  induction hrun generalizing fuel len with
  | nil =>
    cases fuel with
    | zero => exact absurd hfuel (Nat.not_lt_zero _)
    | succ fuel =>
      cases tail with
      | nil => rfl
      | cons b tail =>
        have hb := hends b rfl
        rw [nil_append]
        simp only [scanStringRunFrom]
        by_cases hprint : b - 0x20 < 0x60
        · have hstop : b = quote ∨ b = backslash := by
            rcases hb with hb | hb | hb
            · exact .inl hb
            · exact .inr hb
            · have hle := (printable_iff.mp hprint).1
              exact absurd hb (UInt8.not_lt.mpr hle)
          rw [if_pos hprint, if_pos hstop]
          rfl
        · have hcontrol : b < 0x20 := by
            rcases hb with rfl | rfl | hb
            · exact absurd (by decide) hprint
            · exact absurd (by decide) hprint
            · exact hb
          rw [if_neg hprint, if_pos hcontrol]
          rfl
  | @cons c run hc hrun ih =>
    cases fuel with
    | zero => exact absurd hfuel (Nat.not_lt_zero _)
    | succ fuel =>
      have hstep (b : UInt8) (c' : List UInt8) (heq : c = b :: c') :
          scanStringRunFrom (fuel + 1) len true (c ++ run ++ tail) =
            scanStringRunFrom fuel (len + c.length) true (run ++ tail) := by
        subst heq
        rw [cons_append, cons_append, append_assoc]
        simp only [scanStringRunFrom]
        by_cases hprint : b - 0x20 < 0x60
        · cases hc with
          | one ha hquote hslash =>
            rw [if_pos hprint, if_neg (by simp [hquote, hslash])]
            rfl
          | two ha =>
            have hle := (printable_iff.mp hprint).2
            simp only [UInt8.le_iff_toNat_le, UInt8.reduceToNat] at *
            omega
          | three hab =>
            have hle := (printable_iff.mp hprint).2
            simp only [UInt8.le_iff_toNat_le, UInt8.reduceToNat, ← UInt8.toNat_inj] at *
            omega
          | four hab =>
            have hle := (printable_iff.mp hprint).2
            simp only [UInt8.le_iff_toNat_le, UInt8.reduceToNat, ← UInt8.toNat_inj] at *
            omega
        · have hhigh : 0x80 ≤ b := by
            rw [printable_iff] at hprint
            cases hc with
            | one ha => exact absurd ha hprint
            | two ha =>
              simp only [UInt8.le_iff_toNat_le, UInt8.reduceToNat] at *
              omega
            | three hab =>
              simp only [UInt8.le_iff_toNat_le, UInt8.reduceToNat, ← UInt8.toNat_inj] at *
              omega
            | four hab =>
              simp only [UInt8.le_iff_toNat_le, UInt8.reduceToNat, ← UInt8.toNat_inj] at *
              omega
          have hcontrol : ¬ b < 0x20 := by
            simp only [UInt8.le_iff_toNat_le, UInt8.lt_iff_toNat_lt, UInt8.reduceToNat] at *
            omega
          have hlen := utf8SequenceLen_of_unescaped hhigh hc (run ++ tail)
          rw [if_neg hprint, if_neg hcontrol, hlen, if_neg (by simp), Int.toNat_natCast,
            ← cons_append, drop_left]
      obtain ⟨b, c', heq⟩ : ∃ b c', c = b :: c' := by
        cases hc <;> exact ⟨_, _, rfl⟩
      rw [hstep b c' heq, ih (len + c.length) (by
        rw [heq, append_assoc, cons_append, length_cons] at hfuel
        rw [length_append] at hfuel
        omega), length_append, Nat.add_assoc]

theorem scanStringRun_valid (h : self.scanStringRun.valid = true) :
    ∃ run s, Run run ∧ EndsRun s.rest ∧ Passes self run s ∧
      self.scanStringRun = ⟨run.length, s.rest.head?, true⟩ := by
  obtain ⟨run, tail, hrest, hrun, hends, hscan⟩ := run_of_scan (Nat.lt_succ_self _) h
  obtain ⟨hpasses, htail⟩ := Passes.of_rest hrest
  refine ⟨run, _, hrun, by rw [htail]; exact hends, hpasses, ?_⟩
  rw [htail, scanStringRun, hscan, Nat.zero_add]

theorem scanStringRun_of_run {run : List UInt8} (hrun : Run run)
    (hends : EndsRun s.rest) (h : Passes self run s) :
    self.scanStringRun = ⟨run.length, s.rest.head?, true⟩ := by
  rw [scanStringRun, h.rest, scan_of_run hrun hends 0 (Nat.lt_succ_self _), Nat.zero_add]

end Runs

section Escapes

open JsonDeserializer

theorem readHex4_eq_ok {n : Nat} :
    self.readHex4 = .ok (n, s) ↔ ∃ digits, Hex4 n digits ∧ Passes self digits s := by
  constructor
  · intro h
    unfold readHex4 at h
    split at h
    · next a b c d tail hrest =>
        by_cases hhex : isHexdigit a ∧ isHexdigit b ∧ isHexdigit c ∧ isHexdigit d
        · rw [if_pos hhex] at h
          cases h
          obtain ⟨ha, hb, hc, hd⟩ := hhex
          exact ⟨[a, b, c, d], .mk ha hb hc hd, (Passes.of_rest (a := [a, b, c, d]) hrest).1⟩
        · rw [if_neg hhex] at h
          cases h
    · cases h
  · rintro ⟨digits, ⟨ha, hb, hc, hd⟩, hpasses⟩
    unfold readHex4
    rw [hpasses.rest, hpasses.eq]
    exact if_pos ⟨ha, hb, hc, hd⟩

variable {bytes : List UInt8}

theorem startsWith_of_passes (h : Passes self bytes s) :
    bytes <+: self.rest := ⟨s.rest, h.rest.symm⟩

theorem passes_of_startsWith (h : bytes <+: self.rest) :
    Passes self bytes (self.after bytes.length) := by
  obtain ⟨tail, htail⟩ := h
  exact (Passes.of_rest htail.symm).1

theorem readLowSurrogate_eq_ok {lo : Nat} :
    self.readLowSurrogate = .ok (some lo, s) ↔ ∃ digits, Hex4 lo digits ∧ Low lo ∧
        Passes self (backslash :: letter 'u' :: digits) s := by
  unfold readLowSurrogate
  constructor
  · intro h
    by_cases hpre : [backslash, letter 'u'] <+: self.rest
    · rw [if_pos hpre] at h
      obtain ⟨⟨n, t⟩, hhex, h⟩ := bind_eq_ok.mp h
      obtain ⟨digits, hdigits, hpasses⟩ := readHex4_eq_ok.mp hhex
      by_cases hlow : 0xdc00 ≤ n ∧ n ≤ 0xdfff
      · simp only [if_pos hlow] at h
        cases h
        exact ⟨digits, hdigits, hlow, (passes_of_startsWith hpre).trans hpasses⟩
      · simp only [if_neg hlow] at h
        cases h
    · rw [if_neg hpre] at h
      cases h
  · rintro ⟨digits, hdigits, hlow, hpasses⟩
    obtain ⟨t, ht, hhex⟩ := Passes.split (a := [backslash, letter 'u']) hpasses
    rw [if_pos (startsWith_of_passes ht)]
    have hread := readHex4_eq_ok.mpr ⟨digits, hdigits, hhex⟩
    rw [ht.eq] at hread
    change (self.after 2).readHex4 = _ at hread
    rw [bind_of_eq_ok hread]
    simp only [if_pos (show 0xdc00 ≤ lo ∧ lo ≤ 0xdfff from hlow)]
    rfl

/-- What follows the backslash of a unicode escape. -/
theorem readUnicodeEscape_eq_ok (hu : self.rest.head? = some (letter 'u')) :
    (∃ n, self.readUnicodeEscape = .ok (n, s)) ↔
      ∃ e, Escape (backslash :: letter 'u' :: e) ∧ Passes self (letter 'u' :: e) s := by
  have hstart := Passes.head hu
  constructor
  · rintro ⟨n, h⟩
    unfold readUnicodeEscape at h
    obtain ⟨⟨hi, t⟩, hhex, h⟩ := bind_eq_ok.mp h
    obtain ⟨digits, hdigits, hpasses⟩ := readHex4_eq_ok.mp hhex
    dsimp only at h
    by_cases hlow : 0xdc00 ≤ hi ∧ hi ≤ 0xdfff
    · rw [if_pos hlow] at h
      cases h
    rw [if_neg hlow] at h
    by_cases hhigh : 0xd800 ≤ hi ∧ hi ≤ 0xdbff
    · rw [if_pos hhigh] at h
      obtain ⟨⟨lo, u⟩, hread, h⟩ := bind_eq_ok.mp h
      cases lo with
      | none => cases h
      | some lo =>
        obtain rfl : u = s := congrArg Prod.snd (Except.ok.inj h)
        obtain ⟨digits', hdigits', hlow', hpasses'⟩ := readLowSurrogate_eq_ok.mp hread
        exact ⟨_, .pair hdigits hhigh hdigits' hlow', (hstart.trans hpasses).trans hpasses'⟩
    · rw [if_neg hhigh] at h
      cases h
      exact ⟨digits, .code hdigits hhigh hlow, hstart.trans hpasses⟩
  · rintro ⟨e, he, hpasses⟩
    obtain ⟨t, ht, he'⟩ := Passes.split (a := [letter 'u']) hpasses
    obtain rfl : self.after 1 = t := ht.eq.symm
    unfold readUnicodeEscape
    cases he with
    | simple hc => exact absurd hc (by decide)
    | @code n _ hdigits hhigh hlow =>
      refine ⟨n, ?_⟩
      rw [bind_of_eq_ok (readHex4_eq_ok.mpr ⟨e, hdigits, he'⟩)]
      dsimp only
      rw [if_neg (show ¬ (0xdc00 ≤ n ∧ n ≤ 0xdfff) from hlow),
        if_neg (show ¬ (0xd800 ≤ n ∧ n ≤ 0xdbff) from hhigh)]
    | @pair hi lo digits digits' hdigits hhigh hdigits' hlow =>
      obtain ⟨u, hu', hlast⟩ := he'.split
      refine ⟨0x10000 + ((hi - 0xd800) <<< 10) + (lo - 0xdc00), ?_⟩
      have hnot : ¬ (0xdc00 ≤ hi ∧ hi ≤ 0xdfff) := by
        intro hboth
        exact absurd hboth.1 (Nat.not_le.mpr (Nat.lt_of_le_of_lt hhigh.2 (by decide)))
      rw [bind_of_eq_ok (readHex4_eq_ok.mpr ⟨digits, hdigits, hu'⟩)]
      dsimp only
      rw [if_neg hnot, if_pos (show 0xd800 ≤ hi ∧ hi ≤ 0xdbff from hhigh),
        bind_of_eq_ok (readLowSurrogate_eq_ok.mpr ⟨digits', hdigits', hlow, hlast⟩)]

theorem simpleEscape_isSome {c : UInt8} : (simpleEscape c).isSome ↔
      c ∈ [quote, backslash, slash] ++ ['b', 'f', 'n', 'r', 't'].map letter := by
  simp only [mem_append, mem_cons, map_cons, map_nil, not_mem_nil,
    or_false]
  constructor
  · intro h
    unfold simpleEscape at h
    split_ifs at h with h1 h2 h3 h4 h5 h6
    · exact .inl h1
    · exact .inr (.inr (.inr (.inl h2)))
    · exact .inr (.inr (.inr (.inr (.inl h3))))
    · exact .inr (.inr (.inr (.inr (.inr h4))))
    · exact .inr (.inl h5)
    · exact .inr (.inr (.inl h6))
    · cases h
  · rintro ((rfl | rfl | rfl) | rfl | rfl | rfl | rfl | rfl) <;> decide

theorem simpleEscape_u : simpleEscape (letter 'u') = none := by decide

/-- The decoder of escapes takes the escapes of the grammar. -/
theorem readEscape_eq_ok (hslash : self.rest.head? = some backslash) :
    (∃ c, self.readEscape = .ok (c, s)) ↔ ∃ e, Escape e ∧ Passes self e s := by
  have hstart := Passes.head hslash
  unfold readEscape
  dsimp only
  constructor
  · rintro ⟨c, h⟩
    split at h
    · cases h
    · next esc rest hrest =>
        have hesc : (self.after 1).rest.head? = some esc := by rw [hrest]; rfl
        cases hsimple : simpleEscape esc with
        | some decoded =>
          rw [hsimple] at h
          cases h
          have hmem := simpleEscape_isSome.mp (by rw [hsimple]; rfl)
          exact ⟨_, .simple hmem, hstart.trans (Passes.head hesc)⟩
        | none =>
          rw [hsimple] at h
          dsimp only at h
          by_cases hu : esc = letter 'u'
          · rw [if_pos hu] at h
            rw [hu] at hesc
            obtain ⟨e, he, hpasses⟩ := (readUnicodeEscape_eq_ok hesc).mp ⟨c, h⟩
            exact ⟨_, he, hstart.trans hpasses⟩
          · rw [if_neg hu] at h
            cases h
  · rintro ⟨e, he, hpasses⟩
    have hescape : ∃ esc e', e = backslash :: esc :: e' := by
      cases he <;> exact ⟨_, _, rfl⟩
    obtain ⟨esc, e', rfl⟩ := hescape
    obtain ⟨t, ht, hlast⟩ := Passes.split (a := [backslash]) hpasses
    obtain rfl : self.after 1 = t := ht.eq.symm
    have hesc := hlast.head?
    cases hrest : (self.after 1).rest with
    | nil => simp [hrest] at hesc
    | cons b rest =>
      obtain rfl : b = esc := by simpa [hrest] using hesc
      dsimp only
      cases hsimple : simpleEscape b with
      | some decoded =>
        refine ⟨decoded.toNat, ?_⟩
        cases he with
        | simple hc =>
          rw [hlast.eq]
          rfl
        | code =>
          rw [simpleEscape_u] at hsimple
          cases hsimple
        | pair =>
          rw [simpleEscape_u] at hsimple
          cases hsimple
      | none =>
        cases he with
        | simple hc =>
          have hsome := simpleEscape_isSome.mpr hc
          rw [hsimple] at hsome
          cases hsome
        | code hdigits hhigh hlow =>
          rw [if_pos rfl]
          exact (readUnicodeEscape_eq_ok hesc).mpr ⟨_, .code hdigits hhigh hlow, hlast⟩
        | pair hdigits hhigh hdigits' hlow =>
          rw [if_pos rfl]
          exact (readUnicodeEscape_eq_ok hesc).mpr ⟨_, .pair hdigits hhigh hdigits' hlow, hlast⟩

end Escapes

section Bodies

open JsonDeserializer

theorem Escape.head {e : List UInt8} (h : Escape e) : ∃ e', e = backslash :: e' := by
  cases h <;> exact ⟨_, rfl⟩

theorem Run.chars {run more : List UInt8} (h : Run run) (hmore : Chars more) :
    Chars (run ++ more) := by
  induction h with
  | nil => exact hmore
  | cons hc _ ih =>
    rw [append_assoc]
    exact .unescaped hc ih

/-- The characters of a string are a run, and then nothing or an escape and more of them. -/
theorem Chars.split {chars : List UInt8} (h : Chars chars) :
    ∃ run more, chars = run ++ more ∧ Run run ∧
      (more = [] ∨ ∃ e rest, more = e ++ rest ∧ Escape e ∧ Chars rest) := by
  induction h with
  | nil => exact ⟨[], [], rfl, .nil, .inl rfl⟩
  | unescaped hc _ ih =>
    obtain ⟨run, more, rfl, hrun, hmore⟩ := ih
    exact ⟨_, more, (append_assoc _ _ _).symm, .cons hc hrun, hmore⟩
  | escape he hchars _ => exact ⟨[], _, rfl, .nil, .inr ⟨_, _, rfl, he, hchars⟩⟩

/-- What is left of a string where a run of it stops: nothing, or an escape and more. -/
def AtStop (chars : List UInt8) : Prop :=
  chars = [] ∨ ∃ e rest, chars = e ++ rest ∧ Escape e ∧ Chars rest

theorem AtStop.head {chars tail : List UInt8} (h : AtStop chars) :
    (chars ++ quote :: tail).head? = some quote ∧ chars = [] ∨
      (chars ++ quote :: tail).head? = some backslash ∧ chars ≠ [] := by
  rcases h with rfl | ⟨e, rest, rfl, he, _⟩
  · exact .inl ⟨rfl, rfl⟩
  · obtain ⟨e', rfl⟩ := he.head
    exact .inr ⟨rfl, by simp⟩

theorem AtStop.endsRun {chars tail : List UInt8} (h : AtStop chars) :
    EndsRun (chars ++ quote :: tail) := by
  intro b hb
  rcases @AtStop.head chars tail h with ⟨hhead, _⟩ | ⟨hhead, _⟩
  · rw [hhead] at hb
    cases hb
    exact .inl rfl
  · rw [hhead] at hb
    cases hb
    exact .inr (.inl rfl)

theorem length_pos_of_escape {e : List UInt8} (h : Escape e) : 0 < e.length := by
  obtain ⟨e', rfl⟩ := h.head
  exact Nat.succ_pos _

/-- The skipper of strings takes the strings of the grammar. -/
theorem skipStringFrom_eq_ok (hfuel : self.rest.length < fuel) :
    skipStringFrom fuel self = .ok s ↔ ∃ chars, Chars chars ∧ Passes self (chars ++ [quote]) s := by
  induction fuel generalizing self with
  | zero => exact absurd hfuel (Nat.not_lt_zero _)
  | succ fuel ih =>
    unfold skipStringFrom
    constructor
    · intro h
      by_cases hvalid : self.scanStringRun.valid = true
      · obtain ⟨run, t, hrun, _, hpasses, hscan⟩ := scanStringRun_valid hvalid
        simp only [hscan, not_true_eq_false, if_false] at h
        rw [← hpasses.eq] at h
        by_cases hquote : t.rest.head? = some quote
        · rw [if_pos hquote] at h
          cases h
          refine ⟨run, ?_, hpasses.trans (Passes.head hquote)⟩
          rw [← append_nil run]
          exact hrun.chars .nil
        rw [if_neg hquote] at h
        by_cases hslash : t.rest.head? = some backslash
        · rw [if_neg (by simp [hslash])] at h
          obtain ⟨⟨c, u⟩, hescape, h⟩ := bind_eq_ok.mp h
          obtain ⟨e, he, hpasses'⟩ := (readEscape_eq_ok hslash).mp ⟨c, hescape⟩
          have hshort : u.rest.length < fuel := by
            have hlen := hpasses.length
            have hlen' := hpasses'.length
            have hpos := length_pos_of_escape he
            omega
          obtain ⟨chars, hchars, hlast⟩ := (ih hshort).mp h
          refine ⟨run ++ (e ++ chars), hrun.chars (.escape he hchars), ?_⟩
          rw [append_assoc, append_assoc]
          exact hpasses.trans (hpasses'.trans hlast)
        · rw [if_pos hslash] at h
          unfold tokenStopError fail at h
          split_ifs at h
      · simp only [hvalid] at h
        cases h
    · rintro ⟨chars, hchars, hpasses⟩
      obtain ⟨run, more, rfl, hrun, hmore⟩ := hchars.split
      rw [append_assoc] at hpasses
      obtain ⟨t, ht, hlast⟩ := hpasses.split
      have hrest : t.rest = more ++ quote :: s.rest := by
        rw [hlast.rest, append_assoc]
        rfl
      have hends : EndsRun t.rest := by
        rw [hrest]
        exact AtStop.endsRun hmore
      rw [scanStringRun_of_run hrun hends ht]
      simp only [not_true_eq_false, if_false]
      rw [← ht.eq, hrest]
      rcases hmore with rfl | ⟨e, chars, rfl, he, hchars'⟩
      · rw [nil_append] at hlast ⊢
        rw [List.head?_cons, if_pos rfl, hlast.eq]
        rfl
      · rw [append_assoc] at hlast
        obtain ⟨u, hu, hend⟩ := hlast.split
        obtain ⟨e', rfl⟩ := he.head
        have hslash := hu.head?
        obtain ⟨c, hc⟩ := (readEscape_eq_ok hslash).mpr ⟨_, he, hu⟩
        rw [cons_append, cons_append, List.head?_cons, if_neg (by decide),
          if_neg (by simp), bind_of_eq_ok hc]
        have hshort : u.rest.length < fuel := by
          have hlen := ht.length
          have hlen' := hu.length
          rw [length_cons] at hlen'
          omega
        exact (ih hshort).mpr ⟨chars, hchars', hend⟩

/-- The loop of the string reader, at the stop of a run. -/
theorem readStringFrom_eq_ok {result : List UInt8} (hfuel : self.rest.length < fuel) :
    (∃ text, readStringFrom fuel result self.rest.head? self = .ok (text, s)) ↔
      ∃ chars, AtStop chars ∧ Passes self (chars ++ [quote]) s := by
  induction fuel generalizing self result with
  | zero => exact absurd hfuel (Nat.not_lt_zero _)
  | succ fuel ih =>
    unfold readStringFrom
    constructor
    · rintro ⟨text, h⟩
      by_cases hslash : self.rest.head? = some backslash
      · rw [if_pos hslash] at h
        obtain ⟨⟨c, t⟩, hescape, h⟩ := bind_eq_ok.mp h
        obtain ⟨e, he, hpasses⟩ := (readEscape_eq_ok hslash).mp ⟨c, hescape⟩
        obtain ⟨chunk, htake, h⟩ := bind_eq_ok.mp h
        have hvalid : t.scanStringRun.valid = true := by
          by_contra hnot
          rw [takeScannedRun, if_pos hnot] at htake
          cases htake
        obtain ⟨run, u, hrun, _, hpasses', hscan⟩ := scanStringRun_valid hvalid
        rw [hscan] at h
        dsimp only at h
        rw [← hpasses'.eq] at h
        have hshort : u.rest.length < fuel := by
          have hlen := hpasses.length
          have hlen' := hpasses'.length
          have hpos := length_pos_of_escape he
          omega
        obtain ⟨chars, hchars, hlast⟩ := (ih hshort).mp ⟨text, h⟩
        have hrest : Chars (run ++ chars) := by
          apply hrun.chars
          rcases hchars with rfl | ⟨e', rest, rfl, he', hrest⟩
          · exact .nil
          · exact .escape he' hrest
        refine ⟨e ++ (run ++ chars), .inr ⟨e, _, rfl, he, hrest⟩, ?_⟩
        rw [append_assoc, append_assoc]
        exact hpasses.trans (hpasses'.trans hlast)
      · rw [if_neg hslash] at h
        by_cases hquote : self.rest.head? = some quote
        · rw [if_neg (by simp [hquote])] at h
          cases h
          exact ⟨[], .inl rfl, Passes.head hquote⟩
        · rw [if_pos hquote] at h
          unfold tokenStopError fail at h
          split_ifs at h
    · rintro ⟨chars, hchars, hpasses⟩
      rcases hchars with rfl | ⟨e, rest, rfl, he, hrest⟩
      · rw [nil_append] at hpasses
        refine ⟨result, ?_⟩
        rw [hpasses.head?, if_neg (by decide), if_neg (by simp), hpasses.eq]
        rfl
      · rw [append_assoc] at hpasses
        obtain ⟨t, ht, hlast⟩ := hpasses.split
        obtain ⟨e', rfl⟩ := he.head
        have hslash := ht.head?
        obtain ⟨c, hc⟩ := (readEscape_eq_ok hslash).mpr ⟨_, he, ht⟩
        obtain ⟨run, more, rfl, hrun, hmore⟩ := hrest.split
        rw [append_assoc] at hlast
        obtain ⟨u, hu, hlast⟩ := hlast.split
        have hends : EndsRun u.rest := by
          rw [hlast.rest, append_assoc]
          exact AtStop.endsRun hmore
        have hscan := scanStringRun_of_run hrun hends hu
        have htake : t.takeScannedRun t.scanStringRun = .ok (t.rest.take run.length) := by
          rw [hscan]
          rfl
        have hshort : u.rest.length < fuel := by
          have hlen := ht.length
          have hlen' := hu.length
          rw [length_cons] at hlen
          omega
        obtain ⟨text, htext⟩ := (@ih u (result ++ encodeUtf8 c ++ t.rest.take run.length)
          hshort).mpr ⟨more, hmore, hlast⟩
        refine ⟨text, ?_⟩
        rw [if_pos hslash, bind_of_eq_ok hc]
        dsimp only
        rw [bind_of_eq_ok htake, hscan]
        dsimp only
        rw [← hu.eq]
        exact htext

theorem readStringBody_eq_ok :
    (∃ text, self.readStringBody = .ok (text, s)) ↔
      ∃ chars, Chars chars ∧ Passes self (chars ++ [quote]) s := by
  unfold readStringBody
  constructor
  · rintro ⟨text, h⟩
    obtain ⟨pre, htake, h⟩ := bind_eq_ok.mp h
    have hvalid : self.scanStringRun.valid = true := by
      by_contra hnot
      rw [takeScannedRun, if_pos hnot] at htake
      cases htake
    obtain ⟨run, t, hrun, _, hpasses, hscan⟩ := scanStringRun_valid hvalid
    rw [hscan] at h
    dsimp only at h
    by_cases hquote : t.rest.head? = some quote
    · rw [if_pos hquote] at h
      cases h
      refine ⟨run, ?_, ?_⟩
      · rw [← append_nil run]
        exact hrun.chars .nil
      · have hlast := hpasses.trans (Passes.head hquote)
        rw [hpasses.eq, after_after] at hlast
        exact hlast
    · rw [if_neg hquote, ← hpasses.eq] at h
      obtain ⟨chars, hchars, hlast⟩ := (readStringFrom_eq_ok (by
        have hlen := hpasses.length
        omega)).mp ⟨text, h⟩
      refine ⟨run ++ chars, ?_, ?_⟩
      · apply hrun.chars
        rcases hchars with rfl | ⟨e, rest, rfl, he, hrest⟩
        · exact .nil
        · exact .escape he hrest
      · rw [append_assoc]
        exact hpasses.trans hlast
  · rintro ⟨chars, hchars, hpasses⟩
    obtain ⟨run, more, rfl, hrun, hmore⟩ := hchars.split
    rw [append_assoc] at hpasses
    obtain ⟨t, ht, hlast⟩ := hpasses.split
    have hends : EndsRun t.rest := by
      rw [hlast.rest, append_assoc]
      exact AtStop.endsRun hmore
    have hscan := scanStringRun_of_run hrun hends ht
    have htake : self.takeScannedRun self.scanStringRun = .ok (self.rest.take run.length) := by
      rw [hscan]
      rfl
    rw [bind_of_eq_ok htake, hscan]
    dsimp only
    by_cases hquote : t.rest.head? = some quote
    · refine ⟨self.rest.take run.length, ?_⟩
      rw [if_pos hquote]
      have hnil : more = [] := by
        rcases @AtStop.head more s.rest hmore with ⟨_, hnil⟩ | ⟨hhead, _⟩
        · exact hnil
        · rw [hlast.rest, append_assoc] at hquote
          rw [singleton_append, hhead] at hquote
          exact absurd hquote (by decide)
      subst hnil
      rw [hlast.eq, ht.eq, after_after]
      rfl
    · rw [if_neg hquote, ← ht.eq]
      exact (readStringFrom_eq_ok (by
        have hlen := ht.length
        omega)).mpr ⟨more, hmore, hlast⟩

theorem skipString_eq_ok (hquote : self.rest.head? = some quote) :
    self.skipString = .ok s ↔ ∃ chars, Chars chars ∧ Passes self
      (quote :: (chars ++ [quote])) s := by
  have hstart := Passes.head hquote
  have hlen := hstart.length
  rw [skipString, skipStringFrom_eq_ok (by omega)]
  constructor
  · rintro ⟨chars, hchars, hpasses⟩
    exact ⟨chars, hchars, hstart.trans hpasses⟩
  · rintro ⟨chars, hchars, hpasses⟩
    obtain ⟨t, ht, hlast⟩ := Passes.split (a := [quote]) hpasses
    rw [hstart.unique ht]
    exact ⟨chars, hchars, hlast⟩

/-- The reader of strings takes whitespace and the strings that the skipper takes. -/
theorem readJsonString_eq_ok :
    (∃ text, self.readJsonString = .ok (text, s)) ↔
      ∃ ws chars, Ws ws ∧ Chars chars ∧ Passes self (ws ++ quote :: (chars ++ [quote])) s := by
  have hnotWs : ¬ IsWs quote := by decide
  unfold readJsonString
  constructor
  · rintro ⟨text, h⟩
    obtain ⟨ws, t, hws, hpasses, hpeek, _⟩ := self.peek_passes
    rw [hpeek] at h
    cases hhead : t.rest.head? with
    | none =>
      rw [hhead] at h
      cases h
    | some b =>
      rw [hhead] at h
      dsimp only at h
      by_cases hquote : b = quote
      · rw [if_neg (not_not.mpr hquote)] at h
        rw [hquote] at hhead
        obtain ⟨chars, hchars, hlast⟩ := readStringBody_eq_ok.mp ⟨text, h⟩
        exact ⟨ws, chars, hws, hchars, hpasses.trans ((Passes.head hhead).trans hlast)⟩
      · rw [if_pos hquote] at h
        cases h
  · rintro ⟨ws, chars, hws, hchars, hpasses⟩
    obtain ⟨t, ht, hlast⟩ := hpasses.split
    have hhead := hlast.head?
    have hpeek := peek_eq hws ht (by
      rw [hhead]
      rintro _ ⟨⟩
      exact hnotWs)
    obtain ⟨u, hu, hlast⟩ := Passes.split (a := [quote]) hlast
    obtain ⟨text, htext⟩ := readStringBody_eq_ok.mpr ⟨chars, hchars, hlast⟩
    refine ⟨text, ?_⟩
    rw [hpeek, hhead]
    dsimp only
    rw [if_neg (by simp), ← htext, hu.eq]
    rfl

end Bodies

end Wado.Json
