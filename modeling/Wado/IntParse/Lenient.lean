/-
The lenient parsing of integers, and the texts it takes past its grammar.
-/
import Wado.IntParse.Radix

namespace Wado

open Numerals List

/-! ## The preprocessing -/

/-- The radix that a leading marker gives, and what follows it. -/
def splitPrefix : List UInt8 → Nat × List UInt8
  | 48 :: marker :: rest =>
    if marker = 120 ∨ marker = 88 then (16, rest)
    else if marker = 111 ∨ marker = 79 then (8, rest)
    else if marker = 98 ∨ marker = 66 then (2, rest)
    else (10, 48 :: marker :: rest)
  | body => (10, body)

/-- A byte of the body as the cleaned text has it: a byte past ASCII is pushed
as a character of its own. -/
def pushByte (b : UInt8) : List UInt8 :=
  if b = 95 then [] else String.utf8EncodeChar (Char.ofNat b.toNat)

/-- What follows the sign, cleaned and put after the sign that is attached again. -/
def cleanBody (attached tail : List UInt8) : Except String (List UInt8 × Nat) :=
  if tail.isEmpty then .error "integer string has a sign but no digits"
  else
    let (radix, body) := splitPrefix tail
    let digitCount := body.countP (· ≠ 95)
    if digitCount = 0 then .error "integer string has no digits"
    else .ok (attached ++ body.flatMap pushByte, radix)

/-- The text with its sign, without the marker and the underscores, and its radix. -/
def lenientIntPreprocess : List UInt8 → Except String (List UInt8 × Nat)
  | [] => .error "empty integer string"
  | first :: rest =>
    let isNegative := first == 45
    let hasSign := isNegative || first == 43
    cleanBody (if isNegative then [45] else []) (if hasSign then rest else first :: rest)

/-- The reason that a strict parse's failure is reported with. -/
def reason : IntErrorKind → String
  | .empty => "empty integer string"
  | .invalidDigit => "invalid digit in integer string"
  | .posOverflow => "integer string overflows the target type"
  | .negOverflow => "integer string underflows the target type"

def IntType.fromStrLenient (t : IntType) (s : List UInt8) : Option (Except String Int) :=
  match lenientIntPreprocess s with
  | .error e => some (.error e)
  | .ok (cleaned, radix) => (t.fromStrRadix cleaned radix).map (·.mapError reason)

/-! ## The grammar -/

/-- A marker of a radix, or none for ten. -/
def RadixPrefix (marker : List UInt8) (radix : Nat) : Prop :=
  marker = [] ∧ radix = 10 ∨ (marker = [48, 120] ∨ marker = [48, 88]) ∧ radix = 16 ∨
    (marker = [48, 111] ∨ marker = [48, 79]) ∧ radix = 8 ∨
    (marker = [48, 98] ∨ marker = [48, 66]) ∧ radix = 2

/-- The body without its separators. -/
def strip (body : List UInt8) : List UInt8 := body.filter (· ≠ 95)

/-- The texts of the grammar, at most one sign, at most one marker and a body of
digits and separators with at least one digit, and what they denote. -/
def Denotes (s : List UInt8) (v : Int) : Prop :=
  ∃ sign marker body radix n, s = sign ++ (marker ++ body) ∧ RadixPrefix marker radix ∧
    strip body ≠ [] ∧ digitsValue radix (strip body) = some n ∧
    ((sign = [] ∨ sign = [43]) ∧ v = n ∨ sign = [45] ∧ v = -n)

/-- The texts with a second sign that the type's parser takes: no minus stands
first, and the body without its separators is a sign and digits of the radix
that stand for a value of the type. -/
def SecondSign (t : IntType) (s : List UInt8) : Prop :=
  ∃ sign marker body radix second digits n, s = sign ++ (marker ++ body) ∧
    (sign = [43] ∨ sign = [] ∧ s.head? ≠ some 43 ∧ s.head? ≠ some 45) ∧
    RadixPrefix marker radix ∧ strip body = second :: digits ∧ digits ≠ [] ∧
    digitsValue radix digits = some n ∧
    (second = 43 ∧ t.Holds n ∨ second = 45 ∧ t.signed = true ∧ t.Holds (-n))

/-! ## The bytes that are pushed -/

theorem utf8EncodeChar_ascii : ∀ n < 128, String.utf8EncodeChar (Char.ofNat n) =
    [UInt8.ofNat n] := by
  decide

theorem utf8EncodeChar_above : ∀ n < 128,
    ∃ b ∈ String.utf8EncodeChar (Char.ofNat (n + 128)), 128 ≤ b.toNat := by
  decide

theorem pushByte_ascii {b : UInt8} (hb : b.toNat < 128) (hsep : b ≠ 95) : pushByte b = [b] := by
  rw [pushByte, if_neg hsep, utf8EncodeChar_ascii _ hb, UInt8.ofNat_toNat]

theorem exists_above_of_pushByte {b : UInt8} (hb : 128 ≤ b.toNat) :
    ∃ c ∈ pushByte b, 128 ≤ c.toNat := by
  have hsep : b ≠ 95 := by
    rintro rfl
    exact absurd hb (by decide)
  have hlt := b.toNat_lt
  have hencode := utf8EncodeChar_above (b.toNat - 128) (by omega)
  rw [Nat.sub_add_cancel hb] at hencode
  rw [pushByte, if_neg hsep]
  exact hencode

theorem flatMap_pushByte {body : List UInt8} (hascii : ∀ b ∈ body, b.toNat < 128) :
    body.flatMap pushByte = strip body := by
  induction body with
  | nil => rfl
  | cons b body ih =>
    rw [flatMap_cons, ih fun c hc => hascii c (mem_cons_of_mem b hc), strip, strip]
    by_cases hsep : b = 95
    · rw [filter_cons_of_neg (by simp [hsep]), pushByte, if_pos hsep]
      rfl
    · rw [filter_cons_of_pos (by simp [hsep]),
        pushByte_ascii (hascii b mem_cons_self) hsep]
      rfl

variable {radix n : Nat} {digits : List UInt8}

/-- A text of digits has ASCII bytes only. -/
theorem ascii_of_digitsValue :
    digitsValue radix digits = some n → ∀ b ∈ digits, b.toNat < 128 := by
  unfold digitsValue
  generalize 0 = m
  intro hvalue
  induction digits generalizing m with
  | nil => simp
  | cons b digits ih =>
    simp only [numeral] at hvalue
    split at hvalue
    · cases hvalue
    · rename_i d hd
      have hb : b.toNat < 128 := by
        obtain ⟨hdigit, -⟩ := digitOf_eq_some.mp hd
        by_contra hlarge
        have hnone : digitValue b = -1 := by
          simp only [digitValue]
          split_ifs <;> omega
        omega
      intro c hc
      rcases mem_cons.mp hc with rfl | hc
      · exact hb
      · exact ih _ hvalue c hc

variable {radix : Nat} {s : List UInt8} {v : Int}

variable {signed : Bool}

theorem ascii_of_standsFor (h : StandsFor signed radix s v) : ∀ b ∈ s, b.toNat < 128 := by
  obtain ⟨digits, n, -, hvalue, ⟨rfl, -⟩ | ⟨rfl, -⟩ | ⟨rfl, -⟩⟩ := h
  · exact ascii_of_digitsValue hvalue
  · exact forall_mem_cons.mpr ⟨by decide, ascii_of_digitsValue hvalue⟩
  · exact forall_mem_cons.mpr ⟨by decide, ascii_of_digitsValue hvalue⟩

/-- What the cleaned body is read as is what the body without separators is. -/
theorem standsFor_cleaned_iff (sign body : List UInt8) :
    StandsFor signed radix (sign ++ body.flatMap pushByte) v ↔
      StandsFor signed radix (sign ++ strip body) v := by
  by_cases hascii : ∀ b ∈ body, b.toNat < 128
  · rw [flatMap_pushByte hascii]
  · obtain ⟨b, hb, habove⟩ : ∃ b ∈ body, 128 ≤ b.toNat := by
      by_contra hnone
      exact hascii fun b hb => Nat.lt_of_not_le fun h => hnone ⟨b, hb, h⟩
    constructor
    · intro h
      obtain ⟨c, hc, hcabove⟩ := exists_above_of_pushByte habove
      have hlt := ascii_of_standsFor h c
        (mem_append_right _ (mem_flatMap.mpr ⟨b, hb, hc⟩))
      omega
    · intro h
      have hsep : b ≠ 95 := by
        rintro rfl
        exact absurd habove (by decide)
      have hlt := ascii_of_standsFor h b
        (mem_append_right _ (mem_filter.mpr ⟨hb, by simp [hsep]⟩))
      omega

/-! ## The parts of a text -/

theorem splitPrefix_eq {s body : List UInt8} (h : splitPrefix s = (radix, body)) :
    ∃ marker, s = marker ++ body ∧ RadixPrefix marker radix := by
  unfold splitPrefix at h
  split at h
  · rename_i marker rest
    split_ifs at h with hx ho hb
    · cases h
      exact ⟨[48, marker], rfl, by rcases hx with rfl | rfl <;> simp [RadixPrefix]⟩
    · cases h
      exact ⟨[48, marker], rfl, by rcases ho with rfl | rfl <;> simp [RadixPrefix]⟩
    · cases h
      exact ⟨[48, marker], rfl, by rcases hb with rfl | rfl <;> simp [RadixPrefix]⟩
    · cases h
      exact ⟨[], rfl, .inl ⟨rfl, rfl⟩⟩
  · cases h
    exact ⟨[], rfl, .inl ⟨rfl, rfl⟩⟩

theorem splitPrefix_append {marker body : List UInt8} (hmarker : RadixPrefix marker radix)
    (hplain : marker = [] → splitPrefix body = (10, body)) :
    splitPrefix (marker ++ body) = (radix, body) := by
  rcases hmarker with ⟨rfl, rfl⟩ | ⟨rfl | rfl, rfl⟩ | ⟨rfl | rfl, rfl⟩ | ⟨rfl | rfl, rfl⟩
  · exact hplain rfl
  all_goals rfl

variable {marker : List UInt8}

theorem radix_range (h : RadixPrefix marker radix) :
    2 ≤ radix ∧ radix ≤ 36 := by
  rcases h with ⟨-, rfl⟩ | ⟨-, rfl⟩ | ⟨-, rfl⟩ | ⟨-, rfl⟩ <;> decide

/-- The parts that the preprocessing takes a text apart in. -/
def Parts (s sign marker body : List UInt8) (radix : Nat) : Prop :=
  s = sign ++ (marker ++ body) ∧ RadixPrefix marker radix ∧ strip body ≠ [] ∧
    (sign = [45] ∨ sign = [43] ∨ sign = [] ∧ s.head? ≠ some 43 ∧ s.head? ≠ some 45)

/-- The sign that is attached again. -/
def attached (sign : List UInt8) : List UInt8 := if sign = [45] then [45] else []

theorem countP_eq_zero_iff (body : List UInt8) : body.countP (· ≠ 95) = 0 ↔ strip body = [] := by
  rw [countP_eq_length_filter, length_eq_zero_iff, strip]

theorem cleanBody_eq_ok {attached tail cleaned : List UInt8} :
    cleanBody attached tail = .ok (cleaned, radix) ↔ ∃ body, splitPrefix tail = (radix, body) ∧
      strip body ≠ [] ∧ cleaned = attached ++ body.flatMap pushByte := by
  cases tail with
  | nil =>
    simp only [cleanBody, isEmpty_nil, if_true, reduceCtorEq, false_iff]
    rintro ⟨body, hsplit, hbody, -⟩
    cases hsplit
    exact hbody rfl
  | cons b tail =>
    simp only [cleanBody, isEmpty_cons, Bool.false_eq_true, if_false, countP_eq_zero_iff]
    split_ifs with hnone
    · simp only [false_iff]
      rintro ⟨body, hsplit, hbody, -⟩
      rw [hsplit] at hnone
      exact hbody hnone
    · constructor
      · intro h
        cases h
        exact ⟨_, rfl, hnone, rfl⟩
      · rintro ⟨body, hsplit, -, rfl⟩
        rw [hsplit]

theorem lenientIntPreprocess_of_no_sign (hplus : s.head? ≠ some 43)
    (hminus : s.head? ≠ some 45) (hs : s ≠ []) : lenientIntPreprocess s = cleanBody [] s := by
  cases s with
  | nil => exact absurd rfl hs
  | cons first rest =>
    have h43 : (first == 43) = false := by simpa using hplus
    have h45 : (first == 45) = false := by simpa using hminus
    simp [lenientIntPreprocess, h43, h45]

theorem parts_of_lenientIntPreprocess {s cleaned : List UInt8}
    (h : lenientIntPreprocess s = .ok (cleaned, radix)) : ∃ sign marker body,
      Parts s sign marker body radix ∧ cleaned = attached sign ++ body.flatMap pushByte := by
  cases s with
  | nil => cases h
  | cons first rest =>
    by_cases hminus : first = 45
    · subst hminus
      obtain ⟨body, hsplit, hbody, hcleaned⟩ := cleanBody_eq_ok.mp h
      obtain ⟨marker, hrest, hmarker⟩ := splitPrefix_eq hsplit
      exact ⟨[45], marker, body, ⟨congrArg _ hrest, hmarker, hbody, .inl rfl⟩, hcleaned⟩
    · by_cases hplus : first = 43
      · subst hplus
        obtain ⟨body, hsplit, hbody, hcleaned⟩ := cleanBody_eq_ok.mp h
        obtain ⟨marker, hrest, hmarker⟩ := splitPrefix_eq hsplit
        exact ⟨[43], marker, body, ⟨congrArg _ hrest, hmarker, hbody, .inr (.inl rfl)⟩, hcleaned⟩
      · rw [lenientIntPreprocess_of_no_sign (by simpa using hplus) (by simpa using hminus)
          (cons_ne_nil _ _)] at h
        obtain ⟨body, hsplit, hbody, hcleaned⟩ := cleanBody_eq_ok.mp h
        obtain ⟨marker, hrest, hmarker⟩ := splitPrefix_eq hsplit
        exact ⟨[], marker, body, ⟨hrest, hmarker, hbody,
          .inr (.inr ⟨rfl, by simpa using hplus, by simpa using hminus⟩)⟩, hcleaned⟩

variable {s sign marker body : List UInt8}

theorem lenientIntPreprocess_of_parts
    (h : Parts s sign marker body radix) (hplain : marker = [] → splitPrefix body = (10, body)) :
    lenientIntPreprocess s = .ok (attached sign ++ body.flatMap pushByte, radix) := by
  obtain ⟨hs, hmarker, hbody, hsign⟩ := h
  have hsplit := splitPrefix_append hmarker hplain
  have hclean : ∀ a, cleanBody a (marker ++ body) = .ok (a ++ body.flatMap pushByte, radix) :=
    fun a => cleanBody_eq_ok.mpr ⟨body, hsplit, hbody, rfl⟩
  rcases hsign with rfl | rfl | ⟨rfl, hplus, hminus⟩
  · rw [hs]
    exact hclean [45]
  · rw [hs]
    exact hclean []
  · rw [nil_append] at hs
    have hne : s ≠ [] := by
      rintro rfl
      obtain ⟨-, rfl⟩ := append_eq_nil_iff.mp hs.symm
      exact hbody rfl
    rw [lenientIntPreprocess_of_no_sign hplus hminus hne, hs]
    exact hclean []

/-! ## What is accepted -/

namespace IntType

variable (t : IntType)

/-- A text is parsed to what its parts, put together without separators, stand for. -/
theorem fromStrLenient_of_parts
    (h : Parts s sign marker body radix) (hplain : marker = [] → splitPrefix body = (10, body))
    (hstands : StandsFor t.signed radix (attached sign ++ strip body) v) (hholds : t.Holds v) :
    t.fromStrLenient s = some (.ok v) := by
  have hread := (t.fromStrRadix_eq_ok (radix_range h.2.1) _ v).mpr
    ⟨(standsFor_cleaned_iff (attached sign) body).mpr hstands, hholds⟩
  rw [fromStrLenient, lenientIntPreprocess_of_parts h hplain]
  dsimp only
  rw [hread]
  rfl

theorem parts_of_fromStrLenient (h : t.fromStrLenient s = some (.ok v)) : ∃ sign marker body radix,
      Parts s sign marker body radix ∧
      StandsFor t.signed radix (attached sign ++ strip body) v ∧ t.Holds v := by
  unfold fromStrLenient at h
  split at h
  · cases h
  · rename_i cleaned radix hclean
    obtain ⟨sign, marker, body, hparts, rfl⟩ := parts_of_lenientIntPreprocess hclean
    have hread : t.fromStrRadix (attached sign ++ body.flatMap pushByte) radix = some (.ok v) := by
      cases hrun : t.fromStrRadix (attached sign ++ body.flatMap pushByte) radix with
      | none =>
        rw [hrun] at h
        cases h
      | some r =>
        rw [hrun] at h
        cases r with
        | error k => cases h
        | ok w =>
          cases h
          rfl
    obtain ⟨hstands, hholds⟩ := (t.fromStrRadix_eq_ok (radix_range hparts.2.1) _ v).mp hread
    exact ⟨sign, marker, body, radix, hparts, (standsFor_cleaned_iff _ _).mp hstands, hholds⟩

end IntType

/-- The bytes that a marker or a digit or a separator is. -/
theorem not_sign_of_marker (h : RadixPrefix marker radix) :
    ∀ b ∈ marker, b ≠ 43 ∧ b ≠ 45 := by
  have hpair : ∀ c : UInt8, c ≠ 43 → c ≠ 45 → ∀ b ∈ [48, c], b ≠ 43 ∧ b ≠ 45 := by
    intro c hplus hminus b hb
    rcases mem_pair.mp hb with rfl | rfl
    · decide
    · exact ⟨hplus, hminus⟩
  rcases h with ⟨rfl, -⟩ | ⟨rfl | rfl, -⟩ | ⟨rfl | rfl, -⟩ | ⟨rfl | rfl, -⟩
  · simp
  all_goals exact hpair _ (by decide) (by decide)

theorem digit_of_digitsValue :
    digitsValue radix digits = some n → ∀ b ∈ digits, digitOf radix b ≠ none := by
  unfold digitsValue
  generalize 0 = m
  intro hvalue
  induction digits generalizing m with
  | nil => simp
  | cons b digits ih =>
    simp only [numeral] at hvalue
    split at hvalue
    · cases hvalue
    · rename_i d hd
      intro c hc
      rcases mem_cons.mp hc with rfl | hc
      · simp [hd]
      · exact ih _ hvalue c hc

/-- A text of the grammar has no sign but the first byte. -/
theorem no_sign_of_denotes (h : Denotes s v) :
    ∀ b ∈ s.tail, b ≠ 43 ∧ b ≠ 45 := by
  obtain ⟨sign, marker, body, radix, n, rfl, hmarker, -, hvalue, hsign⟩ := h
  have hbody : ∀ b ∈ body, b ≠ 43 ∧ b ≠ 45 := by
    intro b hb
    by_cases hsep : b = 95
    · subst hsep
      decide
    · have hdigit := digit_of_digitsValue hvalue b (mem_filter.mpr ⟨hb, by simp [hsep]⟩)
      constructor
      · rintro rfl
        exact hdigit (digitOf_sign radix).1
      · rintro rfl
        exact hdigit (digitOf_sign radix).2
  have hrest : ∀ b ∈ marker ++ body, b ≠ 43 ∧ b ≠ 45 := by
    intro b hb
    rcases mem_append.mp hb with hb | hb
    · exact not_sign_of_marker hmarker b hb
    · exact hbody b hb
  intro b hb
  rcases hsign with ⟨rfl | rfl, -⟩ | ⟨rfl, -⟩
  · exact hrest b (mem_of_mem_tail hb)
  · exact hrest b hb
  · exact hrest b hb

theorem sign_of_secondSign {t : IntType} (h : SecondSign t s) :
    ∃ b ∈ s.tail, b = 43 ∨ b = 45 := by
  obtain ⟨sign, marker, body, radix, second, digits, n, hs, hsign, -, hbody, -, -, hsecond⟩ := h
  have hsecondSign : second = 43 ∨ second = 45 := by
    rcases hsecond with ⟨rfl, -⟩ | ⟨rfl, -⟩
    · exact .inl rfl
    · exact .inr rfl
  have hmem : second ∈ marker ++ body := by
    apply mem_append_right
    have : second ∈ strip body := by
      rw [hbody]
      exact mem_cons_self
    exact (mem_filter.mp this).1
  refine ⟨second, ?_, hsecondSign⟩
  rcases hsign with rfl | ⟨rfl, hplus, hminus⟩
  · rw [hs]
    exact hmem
  · rw [nil_append] at hs
    rw [← hs] at hmem
    cases s with
    | nil => cases hmem
    | cons b rest =>
      rcases mem_cons.mp hmem with rfl | hrest
      · rcases hsecondSign with rfl | rfl
        · exact absurd rfl hplus
        · exact absurd rfl hminus
      · exact hrest

/-- A text with a second sign is accepted. -/
theorem IntType.fromStrLenient_of_secondSign (t : IntType)
    (h : SecondSign t s) : ∃ v, t.fromStrLenient s = some (.ok v) := by
  obtain ⟨sign, marker, body, radix, second, digits, n, hs, hsign, hmarker, hbody, hdigits,
    hvalue, hsecond⟩ := h
  have hplain : marker = [] → splitPrefix body = (10, body) := by
    intro _
    unfold splitPrefix
    split
    · rename_i marker rest
      have hfirst : second = 48 := by
        rw [strip, filter_cons_of_pos (by decide)] at hbody
        cases hbody
        rfl
      rcases hsecond with ⟨rfl, -⟩ | ⟨rfl, -⟩
      · cases hfirst
      · cases hfirst
    · rfl
  have hparts : Parts s sign marker body radix := by
    refine ⟨hs, hmarker, ?_, ?_⟩
    · rw [hbody]
      exact cons_ne_nil _ _
    · rcases hsign with rfl | hnone
      · exact .inr (.inl rfl)
      · exact .inr (.inr hnone)
  have hattached : attached sign = [] := by
    rcases hsign with rfl | ⟨rfl, -⟩
    · rfl
    · rfl
  rcases hsecond with ⟨rfl, hholds⟩ | ⟨rfl, hsigned, hholds⟩
  · refine ⟨n, t.fromStrLenient_of_parts hparts hplain ?_ hholds⟩
    rw [hattached, hbody]
    exact ⟨digits, n, hdigits, hvalue, .inr (.inl ⟨rfl, rfl⟩)⟩
  · refine ⟨-n, t.fromStrLenient_of_parts hparts hplain ?_ hholds⟩
    rw [hattached, hbody]
    exact ⟨digits, n, hdigits, hvalue, .inr (.inr ⟨rfl, rfl, hsigned⟩)⟩

/-- What a text is parsed to is what it denotes in the grammar, exactly when the
text has no second sign that the type's parser takes. -/
theorem IntType.fromStrLenient_denotes_iff (t : IntType) (s : List UInt8) :
    (∀ v, t.fromStrLenient s = some (.ok v) → Denotes s v) ↔ ¬ SecondSign t s := by
  constructor
  · intro h hsecond
    obtain ⟨v, hv⟩ := t.fromStrLenient_of_secondSign hsecond
    obtain ⟨b, hb, hsign⟩ := sign_of_secondSign hsecond
    have hnone := no_sign_of_denotes (h v hv) b hb
    rcases hsign with rfl | rfl
    · exact hnone.1 rfl
    · exact hnone.2 rfl
  · intro hsecond v hv
    obtain ⟨sign, marker, body, radix, ⟨hs, hmarker, hbody, hsign⟩, hstands, hholds⟩ :=
      t.parts_of_fromStrLenient hv
    obtain ⟨digits, n, hdigits, hvalue, hread⟩ := hstands
    rcases hsign with rfl | hsign
    · -- A minus was attached, so that a sign after it is no digit.
      have hminus : attached [45] ++ strip body = 45 :: strip body := rfl
      rw [hminus] at hread
      rcases hread with ⟨rfl, -⟩ | ⟨hsplit, -⟩ | ⟨hsplit, hv, -⟩
      · exact absurd hvalue (digitsValue_of_sign (.inr rfl))
      · cases hsplit
      · cases hsplit
        exact ⟨[45], marker, body, radix, n, hs, hmarker, hbody, hvalue, .inr ⟨rfl, hv⟩⟩
    · have hnone : attached sign ++ strip body = strip body := by
        rcases hsign with rfl | ⟨rfl, -⟩
        · rfl
        · rfl
      rw [hnone] at hread
      rcases hread with ⟨rfl, hv⟩ | ⟨hsplit, rfl⟩ | ⟨hsplit, rfl, hsigned⟩
      · refine ⟨sign, marker, body, radix, n, hs, hmarker, hbody, hvalue, .inl ⟨?_, hv⟩⟩
        rcases hsign with rfl | ⟨rfl, -⟩
        · exact .inr rfl
        · exact .inl rfl
      · exact absurd ⟨sign, marker, body, radix, 43, digits, n, hs, hsign, hmarker, hsplit, hdigits,
          hvalue, .inl ⟨rfl, hholds⟩⟩ hsecond
      · exact absurd ⟨sign, marker, body, radix, 45, digits, n, hs, hsign, hmarker, hsplit, hdigits,
          hvalue, .inr ⟨rfl, hsigned, hholds⟩⟩ hsecond

/-- A plus after a plus is taken. -/
theorem IntType.fromStrLenient_second_sign : ¬ ∀ (t : IntType) (s : List UInt8) (v : Int),
    t.fromStrLenient s = some (.ok v) → Denotes s v := by
  intro h
  have hrun : IntType.i32.fromStrLenient [43, 43, 53] = some (.ok 5) := by decide
  exact (no_sign_of_denotes (h .i32 _ 5 hrun) 43 (by decide)).1 rfl

end Wado
