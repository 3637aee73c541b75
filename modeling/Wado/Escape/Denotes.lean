/-
What an escape and a literal's text denote, and that the decoder accepts just
the texts that denote one.
-/
import Wado.Escape.Literals

namespace Wado.Escape

open ExceptSteps List Option

def AllHex (hex : List Char) : Prop := ∀ c ∈ hex, isHexDigit c = true

/-- The escapes, after their backslash. -/
inductive EscapeOf : List Char → Decoded → Prop where
  | named (letter c : Char) (h : namedEscape letter = some c) : EscapeOf [letter] (.char c)
  | braced (hex : List Char) (hne : hex ≠ []) (hhex : AllHex hex)
      (hvalid : (hexNumber hex).isValidChar) :
      EscapeOf ('u' :: '\x7b' :: (hex ++ ['\x7d'])) (.char (Char.ofNat (hexNumber hex)))
  | unit (hex : List Char) (hlength : hex.length = 4) (hhex : AllHex hex)
      (hhigh : isHighSurrogate (hexNumber hex) = false)
      (hlow : isLowSurrogate (hexNumber hex) = false) :
      EscapeOf ('u' :: hex) (.char (Char.ofNat (hexNumber hex)))
  | half (hex : List Char) (hlength : hex.length = 4) (hhex : AllHex hex)
      (hhalf : isHighSurrogate (hexNumber hex) = true ∨ isLowSurrogate (hexNumber hex) = true) :
      EscapeOf ('u' :: hex) (.surrogate (hexNumber hex))

/-! ## Digits -/

variable {hex chars out rest : List Char}

theorem bracedDigits_eq_ok :
    bracedDigits hex chars = .ok (out, rest) ↔
      ∃ more, AllHex more ∧ out = hex ++ more ∧ chars = more ++ '\x7d' :: rest := by
  induction chars generalizing hex with
  | nil => simp [bracedDigits]
  | cons c chars ih =>
    rw [bracedDigits]
    split_ifs with hclose hhex
    · constructor
      · intro h
        cases h
        exact ⟨[], by simp [AllHex], by simp, by simp [hclose]⟩
      · rintro ⟨more, hall, rfl, hchars⟩
        cases more with
        | nil =>
          cases hchars
          simp
        | cons m more =>
          cases hchars
          have hm := hall c mem_cons_self
          rw [hclose] at hm
          exact absurd hm (by decide)
    · rw [ih]
      constructor
      · rintro ⟨more, hall, rfl, rfl⟩
        refine ⟨c :: more, ?_, by simp, rfl⟩
        intro d hd
        rcases mem_cons.mp hd with rfl | hd
        · exact hhex
        · exact hall d hd
      · rintro ⟨more, hall, rfl, hchars⟩
        cases more with
        | nil =>
          cases hchars
          exact absurd rfl hclose
        | cons m more =>
          cases hchars
          exact ⟨more, fun d hd => hall d (mem_cons_of_mem _ hd), by simp, rfl⟩
    · constructor
      · intro h
        cases h
      · rintro ⟨more, hall, rfl, hchars⟩
        cases more with
        | nil =>
          cases hchars
          exact absurd rfl hclose
        | cons m more =>
          cases hchars
          exact absurd (hall c mem_cons_self) hhex

variable {n : Nat}

theorem digits_eq_ok :
    digits n hex chars = .ok (out, rest) ↔
      ∃ more, more.length = n ∧ AllHex more ∧ out = hex ++ more ∧ chars = more ++ rest := by
  induction n generalizing hex chars with
  | zero =>
    rw [digits]
    constructor
    · intro h
      cases h
      exact ⟨[], rfl, by simp [AllHex], by simp, rfl⟩
    · rintro ⟨more, hlength, -, rfl, rfl⟩
      cases length_eq_zero_iff.mp hlength
      simp
  | succ n ih =>
    cases chars with
    | nil =>
      rw [digits]
      constructor
      · intro h
        cases h
      · rintro ⟨more, hlength, -, -, hchars⟩
        rw [(append_eq_nil_iff.mp hchars.symm).1] at hlength
        cases hlength
    | cons c chars =>
      rw [digits]
      split_ifs with hhex
      · rw [ih]
        constructor
        · rintro ⟨more, hlength, hall, rfl, rfl⟩
          refine ⟨c :: more, by simp [hlength], ?_, by simp, rfl⟩
          intro d hd
          rcases mem_cons.mp hd with rfl | hd
          · exact hhex
          · exact hall d hd
        · rintro ⟨more, hlength, hall, rfl, hchars⟩
          cases more with
          | nil => cases hlength
          | cons m more =>
            cases hchars
            exact ⟨more, Nat.succ.inj hlength,
              fun d hd => hall d (mem_cons_of_mem _ hd), by simp, rfl⟩
      · constructor
        · intro h
          cases h
        · rintro ⟨more, hlength, hall, rfl, hchars⟩
          cases more with
          | nil => cases hlength
          | cons m more =>
            cases hchars
            exact absurd (hall c mem_cons_self) hhex

variable {c : Char}

theorem hexValue_lt (h : isHexDigit c = true) : hexValue c < 16 := by
  unfold isHexDigit at h
  unfold hexValue
  simp only [Bool.or_eq_true, Bool.and_eq_true, decide_eq_true_eq, Char.isDigit, ge_iff_le] at h
  simp only [Char.isDigit, Bool.and_eq_true, decide_eq_true_eq, ge_iff_le, Char.le_def,
    UInt32.le_iff_toNat_le] at h ⊢
  simp only [Char.toNat]
  split_ifs <;> simp_all <;> omega

variable {hex : List Char}

theorem foldl_hex_lt (h : AllHex hex) (n : Nat) :
    hex.foldl (fun n c => n * 16 + hexValue c) n < (n + 1) * 16 ^ hex.length := by
  induction hex generalizing n with
  | nil => simp
  | cons c hex ih =>
    have hc := hexValue_lt (h c mem_cons_self)
    have hrest := ih (fun d hd => h d (mem_cons_of_mem _ hd)) (n * 16 + hexValue c)
    rw [foldl_cons, length_cons, Nat.pow_succ, Nat.mul_comm (16 ^ hex.length),
      ← Nat.mul_assoc]
    have hstep : n * 16 + hexValue c + 1 ≤ (n + 1) * 16 := by omega
    exact Nat.lt_of_lt_of_le hrest (Nat.mul_le_mul hstep (Nat.le_refl _))

theorem hexNumber_lt (h : AllHex hex) : hexNumber hex < 16 ^ hex.length := by
  have hlt := foldl_hex_lt h 0
  rw [Nat.zero_add, Nat.one_mul] at hlt
  exact hlt

/-! ## Escapes -/

theorem charFromU32_eq_some :
    charFromU32 n = some c ↔ n.isValidChar ∧ c = Char.ofNat n := by
  unfold charFromU32
  split_ifs with h
  · simp [h, eq_comm]
  · simp [h]

variable {error : String}

theorem okOrElse_eq_ok {α : Type} {o : Option α} {a : α} :
    okOrElse error o = .ok a ↔ o = some a := by
  cases o <;> simp [okOrElse]

theorem okOrElse_charFromU32 :
    okOrElse error (charFromU32 n) = .ok c ↔ n.isValidChar ∧ c = Char.ofNat n := by
  rw [okOrElse_eq_ok, charFromU32_eq_some]

theorem isValidChar_of_unit (hn : n < 2 ^ 16) (hhigh : isHighSurrogate n = false)
    (hlow : isLowSurrogate n = false) : n.isValidChar := by
  simp only [isHighSurrogate, isLowSurrogate, Bool.and_eq_false_iff, decide_eq_false_iff_not]
    at hhigh hlow
  unfold Nat.isValidChar
  omega

variable {chars rest : List Char} {decoded : Decoded}

theorem braced_eq_ok :
    unescapeUnicode ('\x7b' :: chars) = .ok (decoded, rest) ↔
      ∃ hex, hex ≠ [] ∧ AllHex hex ∧ (hexNumber hex).isValidChar ∧
        decoded = .char (Char.ofNat (hexNumber hex)) ∧ chars = hex ++ '\x7d' :: rest := by
  rw [unescapeUnicode, List.head?_cons, if_pos rfl, tail_cons, bind_eq_ok]
  constructor
  · rintro ⟨⟨hex, rest'⟩, hdigits, h⟩
    obtain ⟨more, hall, rfl, rfl⟩ := bracedDigits_eq_ok.mp hdigits
    dsimp only at h
    split_ifs at h with hempty
    split at h
    · cases h
    · rename_i codePoint hparse
      obtain ⟨-, hnumber⟩ := ite_none_right_eq_some.mp hparse
      obtain rfl := Option.some.inj hnumber
      obtain ⟨c, hchar, h⟩ := bind_eq_ok.mp h
      obtain ⟨hvalid, rfl⟩ := okOrElse_charFromU32.mp hchar
      cases h
      exact ⟨hex, by simpa using hempty, hall, hvalid, rfl, rfl⟩
  · rintro ⟨hex, hne, hall, hvalid, rfl, rfl⟩
    refine ⟨(hex, rest), bracedDigits_eq_ok.mpr ⟨hex, hall, rfl, rfl⟩, ?_⟩
    have hbound : hexNumber hex < 2 ^ 32 := by
      unfold Nat.isValidChar at hvalid
      omega
    have hparse : parseHex (2 ^ 32) hex = some (hexNumber hex) := if_pos hbound
    dsimp only
    rw [if_neg (by simpa using hne), hparse]
    exact bind_of_eq_ok (okOrElse_charFromU32.mpr ⟨hvalid, rfl⟩)

theorem unit_eq_ok (hbrace : chars.head? ≠ some '\x7b') :
    unescapeUnicode chars = .ok (decoded, rest) ↔
      ∃ hex, hex.length = 4 ∧ EscapeOf ('u' :: hex) decoded ∧ chars = hex ++ rest := by
  rw [unescapeUnicode, if_neg hbrace, bind_eq_ok]
  constructor
  · rintro ⟨⟨hex, rest'⟩, hdigits, h⟩
    obtain ⟨more, hlength, hall, rfl, rfl⟩ := digits_eq_ok.mp hdigits
    dsimp only at h
    split at h
    · cases h
    · rename_i codeUnit hparse
      obtain ⟨-, hnumber⟩ := ite_none_right_eq_some.mp hparse
      obtain rfl := Option.some.inj hnumber
      split_ifs at h with hhalf
      · cases h
        exact ⟨hex, hlength, .half hex hlength hall ((Bool.or_eq_true _ _).mp hhalf), rfl⟩
      · obtain ⟨c, hchar, h⟩ := bind_eq_ok.mp h
        obtain ⟨-, rfl⟩ := okOrElse_charFromU32.mp hchar
        cases h
        obtain ⟨hhigh, hlow⟩ := Bool.or_eq_false_iff.mp ((Bool.not_eq_true _).mp hhalf)
        exact ⟨hex, hlength, .unit hex hlength hall hhigh hlow, rfl⟩
  · rintro ⟨hex, hlength, hescape, rfl⟩
    have hall : AllHex hex := by
      cases hescape with
      | named letter c h => cases h
      | braced hex hne hhex hvalid => exact absurd rfl hbrace
      | unit hex hlength hhex hhigh hlow => exact hhex
      | half hex hlength hhex hhalf => exact hhex
    have hbound : hexNumber hex < 2 ^ 16 := by
      have hlt := hexNumber_lt hall
      rw [hlength] at hlt
      exact hlt
    have hparse : parseHex (2 ^ 16) hex = some (hexNumber hex) := if_pos hbound
    refine ⟨(hex, rest), digits_eq_ok.mpr ⟨hex, hlength, hall, rfl, rfl⟩, ?_⟩
    dsimp only
    rw [hparse]
    dsimp only
    cases hescape with
    | named letter c h => cases h
    | braced hex hne hhex hvalid => exact absurd rfl hbrace
    | unit hex hlength hhex hhigh hlow =>
      rw [hhigh, hlow, if_neg (by decide)]
      exact bind_of_eq_ok
        (okOrElse_charFromU32.mpr ⟨isValidChar_of_unit hbound hhigh hlow, rfl⟩)
    | half hex hlength hhex hhalf =>
      rw [if_pos ((Bool.or_eq_true _ _).mpr hhalf)]

theorem head_ne_brace (hlength : hex.length = 4) (hhex : AllHex hex)
    (rest : List Char) : (hex ++ rest).head? ≠ some '\x7b' := by
  cases hex with
  | nil => cases hlength
  | cons c hex =>
    intro h
    have hc := hhex c mem_cons_self
    rw [Option.some.inj h] at hc
    exact absurd hc (by decide)

theorem namedEscape_u : namedEscape 'u' = none := rfl

theorem unescapeOne_eq_ok {chars rest : List Char} {decoded : Decoded} :
    unescapeOne chars = .ok (decoded, rest) ↔
      ∃ escape, EscapeOf escape decoded ∧ chars = escape ++ rest := by
  constructor
  · intro h
    cases chars with
    | nil => cases h
    | cons c chars =>
      rw [unescapeOne] at h
      split at h
      · rename_i d hnamed
        cases h
        exact ⟨[c], .named c d hnamed, rfl⟩
      · split_ifs at h with hu
        subst hu
        by_cases hbrace : chars.head? = some '\x7b'
        · obtain ⟨chars, rfl⟩ : ∃ more, chars = '\x7b' :: more := by
            cases chars with
            | nil => cases hbrace
            | cons c chars => exact ⟨chars, by rw [Option.some.inj hbrace]⟩
          obtain ⟨hex, hne, hall, hvalid, rfl, rfl⟩ := braced_eq_ok.mp h
          exact ⟨_, .braced hex hne hall hvalid, by simp⟩
        · obtain ⟨hex, -, hescape, rfl⟩ := (unit_eq_ok hbrace).mp h
          exact ⟨_, hescape, rfl⟩
  · rintro ⟨escape, hescape, rfl⟩
    cases hescape with
    | named letter c h =>
      rw [singleton_append, unescapeOne, h]
    | braced hex hne hhex hvalid =>
      rw [cons_append, unescapeOne, namedEscape_u]
      dsimp only
      rw [if_pos rfl, cons_append, append_assoc, singleton_append]
      exact braced_eq_ok.mpr ⟨hex, hne, hhex, hvalid, rfl, rfl⟩
    | unit hex hlength hhex hhigh hlow =>
      rw [cons_append, unescapeOne, namedEscape_u]
      dsimp only
      rw [if_pos rfl]
      exact (unit_eq_ok (head_ne_brace hlength hhex rest)).mpr
        ⟨hex, hlength, .unit hex hlength hhex hhigh hlow, rfl⟩
    | half hex hlength hhex hhalf =>
      rw [cons_append, unescapeOne, namedEscape_u]
      dsimp only
      rw [if_pos rfl]
      exact (unit_eq_ok (head_ne_brace hlength hhex rest)).mpr
        ⟨hex, hlength, .half hex hlength hhex hhalf, rfl⟩

/-! ## Whole texts -/

section Text

variable (standsForItself : Char → Bool)

/-- An escape that is not taken for a character standing for itself. -/
def Escapes (escape : List Char) (decoded : Decoded) : Prop :=
  EscapeOf escape decoded ∧ standing standsForItself escape = none

/-- The character a pair of halves denotes. -/
def pairChar (high low : Nat) : Char := Char.ofNat (decodeSurrogatePair high low)

/-- What a literal's raw text denotes: every character but a backslash itself,
every escape its character, and a high half with the low half right after it
the character of the pair. -/
inductive Denotes : List Char → List Char → Prop where
  | nil : Denotes [] []
  | plain {raw text : List Char} (c : Char) (hc : c ≠ '\\') (h : Denotes raw text) :
      Denotes (c :: raw) (c :: text)
  | self {raw text : List Char} (c : Char) (hc : standsForItself c = true)
      (h : Denotes raw text) : Denotes ('\\' :: c :: raw) (c :: text)
  | escape {raw text : List Char} (escape : List Char) (c : Char)
      (hescape : Escapes standsForItself escape (.char c)) (h : Denotes raw text) :
      Denotes ('\\' :: (escape ++ raw)) (c :: text)
  | pair {raw text : List Char} (first second : List Char) (high low : Nat)
      (hhigh : isHighSurrogate high = true) (hlow : isLowSurrogate low = true)
      (hfirst : Escapes standsForItself first (.surrogate high))
      (hsecond : Escapes standsForItself second (.surrogate low)) (h : Denotes raw text) :
      Denotes ('\\' :: (first ++ '\\' :: (second ++ raw))) (pairChar high low :: text)

/-- What a text denotes after a pending high half: it begins with the low half. -/
def DenotesAfter (high : Nat) (raw text : List Char) : Prop :=
  ∃ second low rest text', isLowSurrogate low = true ∧
    Escapes standsForItself second (.surrogate low) ∧ Denotes standsForItself rest text' ∧
    raw = '\\' :: (second ++ rest) ∧ text = pairChar high low :: text'

variable {escape : List Char}

theorem EscapeOf.ne_nil (h : EscapeOf escape decoded) :
    escape ≠ [] := by
  cases h <;> simp

theorem EscapeOf.surrogate_half {codeUnit : Nat} (h : EscapeOf escape (.surrogate codeUnit)) :
    isHighSurrogate codeUnit = true ∨ isLowSurrogate codeUnit = true := by
  cases h
  assumption

theorem standing_append (hne : escape ≠ []) (rest : List Char) :
    standing standsForItself (escape ++ rest) = none ↔ standing standsForItself escape = none := by
  cases escape with
  | nil => exact absurd rfl hne
  | cons c escape =>
    rw [cons_append, standing, standing]
    split_ifs <;> simp

variable {standsForItself}

/-! ### One step of the decoder -/

theorem unescapeFrom_plain (hc : c ≠ '\\') (pairer : SurrogatePairer) (chars : List Char) :
    unescapeFrom standsForItself pairer (c :: chars) = do
      let c ← pairer.pass c
      let result ← unescapeFrom standsForItself pairer chars
      return c :: result := by
  rw [unescapeFrom, if_neg hc]

theorem unescapeFrom_self (hc : standsForItself c = true) (pairer : SurrogatePairer)
    (chars : List Char) :
    unescapeFrom standsForItself pairer ('\\' :: c :: chars) = do
      let c ← pairer.pass c
      let result ← unescapeFrom standsForItself pairer chars
      return c :: result := by
  have hself : standing standsForItself (c :: chars) = some (c, chars) := if_pos hc
  rw [unescapeFrom, if_pos rfl]
  split
  · rename_i next rest hsome
    obtain ⟨rfl, rfl⟩ := Prod.mk.inj (Option.some.inj (hself.symm.trans hsome))
    rfl
  · rename_i hnone
    cases hself.symm.trans hnone

variable {pairer pairer' : SurrogatePairer}

variable {c : Option Char}

theorem unescapeFrom_escape (hself : standing standsForItself chars = none)
    (hone : unescapeOne chars = .ok (decoded, rest))
    (hpush : pairer.push decoded = .ok (c, pairer')) :
    unescapeFrom standsForItself pairer ('\\' :: chars) = do
      let result ← unescapeFrom standsForItself pairer' rest
      return c.toList ++ result := by
  rw [unescapeFrom, if_pos rfl]
  split
  · rename_i next rest' hsome
    cases hself.symm.trans hsome
  · split
    · rename_i e herror
      cases hone.symm.trans herror
    · rename_i decoded' rest' hok
      obtain ⟨rfl, rfl⟩ := Prod.mk.inj (Except.ok.inj (hone.symm.trans hok))
      rw [hpush]

variable {high low : Nat}

theorem decodeSurrogatePair_isValidChar (hhigh : isHighSurrogate high = true)
    (hlow : isLowSurrogate low = true) : (decodeSurrogatePair high low).isValidChar := by
  simp only [isHighSurrogate, isLowSurrogate, Bool.and_eq_true, decide_eq_true_eq] at hhigh hlow
  unfold Nat.isValidChar decodeSurrogatePair
  rw [Nat.shiftLeft_eq]
  omega

theorem push_low (hhigh : isHighSurrogate high = true) (hlow : isLowSurrogate low = true) :
    SurrogatePairer.push ⟨some high⟩ (.surrogate low) = .ok (some (pairChar high low), ⟨none⟩) := by
  have hnothigh : isHighSurrogate low = false := by
    simp only [isHighSurrogate, isLowSurrogate, Bool.and_eq_true, Bool.and_eq_false_iff,
      decide_eq_true_eq, decide_eq_false_iff_not] at hlow ⊢
    omega
  rw [SurrogatePairer.push, hnothigh, if_neg Bool.false_ne_true]
  apply bind_of_eq_ok
  rw [okOrElse_charFromU32, pairChar]
  exact ⟨decodeSurrogatePair_isValidChar hhigh hlow, rfl⟩

theorem push_high {high : Nat} (hhigh : isHighSurrogate high = true) :
    SurrogatePairer.push ⟨none⟩ (.surrogate high) = .ok (none, ⟨some high⟩) := by
  simp only [SurrogatePairer.push, hhigh, if_true]
  rfl

variable {pairer : SurrogatePairer}

theorem pass_eq_ok {c c' : Char} :
    pairer.pass c = .ok c' ↔ pairer.pendingHigh = none ∧ c' = c := by
  unfold SurrogatePairer.pass
  cases pairer.pendingHigh with
  | none => simp [eq_comm]
  | some high => simp

/-- What the pairer can do with an escape. -/
theorem push_cases (h : pairer.push decoded = .ok (c, pairer')) :
    (∃ d, decoded = .char d ∧ pairer.pendingHigh = none ∧ c = some d ∧ pairer' = pairer) ∨
    (∃ high, decoded = .surrogate high ∧ isHighSurrogate high = true ∧
      pairer.pendingHigh = none ∧ c = none ∧ pairer' = ⟨some high⟩) ∨
    ∃ low high, decoded = .surrogate low ∧ isHighSurrogate low = false ∧
      pairer.pendingHigh = some high ∧ c = some (pairChar high low) ∧ pairer' = ⟨none⟩ := by
  cases decoded with
  | char d =>
    simp only [SurrogatePairer.push, bind_eq_ok, pass_eq_ok, pure_eq_ok] at h
    obtain ⟨d', ⟨hpending, rfl⟩, hpair⟩ := h
    obtain ⟨rfl, rfl⟩ := Prod.mk.inj hpair
    exact .inl ⟨d', rfl, hpending, rfl, rfl⟩
  | surrogate codeUnit =>
    rw [SurrogatePairer.push] at h
    split_ifs at h with hhigh hpending
    · cases h
      exact .inr (.inl ⟨codeUnit, rfl, hhigh, by simpa using hpending, rfl, rfl⟩)
    · split at h
      · rename_i high hsome
        simp only [bind_eq_ok, pure_eq_ok, okOrElse_charFromU32] at h
        obtain ⟨d, ⟨-, hd⟩, hpair⟩ := h
        rw [← pairChar] at hd
        obtain ⟨rfl, rfl⟩ := Prod.mk.inj hpair
        exact .inr (.inr ⟨codeUnit, high, rfl, (Bool.not_eq_true _).mp hhigh, hsome,
          congrArg some hd, rfl⟩)
      · cases h

/-- What the decoder can do at a character. -/
theorem unescapeFrom_cases {ch : Char} {chars text : List Char}
    (h : unescapeFrom standsForItself pairer (ch :: chars) = .ok text) :
    (ch ≠ '\\' ∧ pairer.pendingHigh = none ∧ ∃ text', text = ch :: text' ∧
      unescapeFrom standsForItself pairer chars = .ok text') ∨
    (ch = '\\' ∧ pairer.pendingHigh = none ∧ ∃ next rest text', chars = next :: rest ∧
      standsForItself next = true ∧ text = next :: text' ∧
      unescapeFrom standsForItself pairer rest = .ok text') ∨
    (ch = '\\' ∧ ∃ escape decoded rest c pairer' text', chars = escape ++ rest ∧
      Escapes standsForItself escape decoded ∧ pairer.push decoded = .ok (c, pairer') ∧
      text = c.toList ++ text' ∧ unescapeFrom standsForItself pairer' rest = .ok text') := by
  by_cases hch : ch = '\\'
  · subst hch
    rw [unescapeFrom, if_pos rfl] at h
    split at h
    · rename_i next rest hself
      simp only [bind_eq_ok, pass_eq_ok, pure_eq_ok] at h
      obtain ⟨c, ⟨hpending, rfl⟩, text', hrest, rfl⟩ := h
      cases chars with
      | nil => cases hself
      | cons d chars =>
        obtain ⟨hd, hsome⟩ := ite_none_right_eq_some.mp hself
        cases hsome
        exact .inr (.inl ⟨rfl, hpending, c, rest, text', rfl, hd, rfl, hrest⟩)
    · rename_i hself
      split at h
      · cases h
      · rename_i decoded rest hone
        split at h
        · cases h
        · rename_i c pairer' hpush
          simp only [bind_eq_ok, pure_eq_ok] at h
          obtain ⟨text', hrest, rfl⟩ := h
          obtain ⟨escape, hescape, rfl⟩ := unescapeOne_eq_ok.mp hone
          have hnone := (standing_append standsForItself hescape.ne_nil rest).mp hself
          exact .inr (.inr ⟨rfl, escape, decoded, rest, c, pairer', text', rfl,
            ⟨hescape, hnone⟩, hpush, rfl, hrest⟩)
  · rw [unescapeFrom_plain hch] at h
    simp only [bind_eq_ok, pass_eq_ok, pure_eq_ok] at h
    obtain ⟨c, ⟨hpending, rfl⟩, text', hrest, rfl⟩ := h
    exact .inl ⟨hch, hpending, text', rfl, hrest⟩

/-! ### The decoder accepts what denotes a text -/

theorem unescapeFrom_of_denotes {raw text : List Char} (h : Denotes standsForItself raw text) :
    unescapeFrom standsForItself ⟨none⟩ raw = .ok text := by
  induction h with
  | nil =>
    rw [unescapeFrom]
    rfl
  | plain c hc h ih =>
    rw [unescapeFrom_plain hc, ih]
    rfl
  | self c hc h ih =>
    rw [unescapeFrom_self hc, ih]
    rfl
  | @escape raw text escape c hescape h ih =>
    have hself := (standing_append standsForItself hescape.1.ne_nil raw).mpr hescape.2
    have hone := (@unescapeOne_eq_ok _ raw _).mpr ⟨escape, hescape.1, rfl⟩
    have hpush : SurrogatePairer.push ⟨none⟩ (.char c) = .ok (some c, ⟨none⟩) := rfl
    rw [unescapeFrom_escape hself hone hpush, ih]
    rfl
  | @pair raw text first second high low hhigh hlow hfirst hsecond h ih =>
    have hself := (standing_append standsForItself hfirst.1.ne_nil
      ('\\' :: (second ++ raw))).mpr hfirst.2
    have hone := (@unescapeOne_eq_ok _ ('\\' :: (second ++ raw)) _).mpr ⟨first, hfirst.1, rfl⟩
    have hself' := (standing_append standsForItself hsecond.1.ne_nil raw).mpr hsecond.2
    have hone' := (@unescapeOne_eq_ok _ raw _).mpr ⟨second, hsecond.1, rfl⟩
    rw [unescapeFrom_escape hself hone (push_high hhigh),
      unescapeFrom_escape hself' hone' (push_low hhigh hlow), ih]
    rfl

theorem denotes_of_unescapeFrom (raw text : List Char) :
    (unescapeFrom standsForItself ⟨none⟩ raw = .ok text → Denotes standsForItself raw text) ∧
    ∀ high, isHighSurrogate high = true → unescapeFrom standsForItself ⟨some high⟩ raw = .ok text →
      DenotesAfter standsForItself high raw text := by
  induction hlength : raw.length using Nat.strongRecOn generalizing raw text with
  | ind n ih =>
  subst hlength
  cases raw with
  | nil =>
    constructor
    · intro h
      rw [unescapeFrom] at h
      cases h
      exact .nil
    · intro high _ h
      rw [unescapeFrom] at h
      cases h
  | cons ch chars =>
    constructor
    · intro h
      obtain ⟨hch, -, text', rfl, hrest⟩ | ⟨rfl, -, next, rest, text', rfl, hnext, rfl, hrest⟩ |
        ⟨rfl, escape, decoded, rest, c, pairer', text', rfl, hescape, hpush, rfl, hrest⟩ :=
        unescapeFrom_cases h
      · exact .plain ch hch ((ih _ (by simp) _ _ rfl).1 hrest)
      · exact .self next hnext ((ih _ (by simp only [length_cons]; omega) _ _ rfl).1 hrest)
      · obtain ⟨d, rfl, -, rfl, rfl⟩ | ⟨high, rfl, hhigh, -, rfl, rfl⟩ |
          ⟨low, high, rfl, -, hpending, -, -⟩ := push_cases hpush
        · exact .escape escape d hescape
            ((ih _ (by simp only [length_cons, length_append]; omega) _ _ rfl).1 hrest)
        · obtain ⟨second, low, rest', text'', hlow, hsecond, hdenotes, rfl, rfl⟩ :=
            (ih _ (by simp only [length_cons, length_append]; omega) _ _ rfl).2
              high hhigh hrest
          exact .pair escape second high low hhigh hlow hescape hsecond hdenotes
        · cases hpending
    · intro high hhigh h
      obtain ⟨-, hpending, -⟩ | ⟨-, hpending, -⟩ |
        ⟨rfl, escape, decoded, rest, c, pairer', text', rfl, hescape, hpush, rfl, hrest⟩ :=
        unescapeFrom_cases h
      · cases hpending
      · cases hpending
      · obtain ⟨d, -, hpending, -⟩ | ⟨high', -, -, hpending, -⟩ |
          ⟨low, high', rfl, hnothigh, hpending, rfl, rfl⟩ := push_cases hpush
        · cases hpending
        · cases hpending
        · cases hpending
          have hlow : isLowSurrogate low = true := by
            have hhalf := hescape.1.surrogate_half
            rw [hnothigh] at hhalf
            exact hhalf.resolve_left Bool.false_ne_true
          exact ⟨escape, low, rest, text', hlow, hescape,
            (ih _ (by simp only [length_cons, length_append]; omega) _ _ rfl).1 hrest,
            rfl, rfl⟩

theorem unescapeBody_eq_ok (raw text : List Char) :
    unescapeBody raw standsForItself = .ok text ↔ Denotes standsForItself raw text :=
  ⟨(denotes_of_unescapeFrom raw text).1, unescapeFrom_of_denotes⟩

end Text

end Wado.Escape
