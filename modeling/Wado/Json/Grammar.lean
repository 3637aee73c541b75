/-
The grammar of RFC 8259 over bytes: strings of UTF-8 whose surrogate escapes are paired,
numbers, and values that nest to a depth.
-/
import Wado.ExceptSteps
import Wado.Json.Reader

namespace Wado

namespace Json

section Strings

/-- A byte of a UTF-8 sequence after its first. -/
def Tail (b : UInt8) : Prop := 0x80 ≤ b ∧ b ≤ 0xbf

instance : DecidablePred Tail := fun _ => inferInstanceAs (Decidable (_ ∧ _))

/-- A character that stands for itself in a string, in UTF-8. -/
inductive Unescaped : List UInt8 → Prop where
  | one {a : UInt8} (ha : 0x20 ≤ a ∧ a ≤ 0x7f) (hquote : a ≠ quote) (hslash : a ≠ backslash) :
      Unescaped [a]
  | two {a b : UInt8} (ha : 0xc2 ≤ a ∧ a ≤ 0xdf) (hb : Tail b) : Unescaped [a, b]
  | three {a b c : UInt8}
      (hab : a = 0xe0 ∧ 0xa0 ≤ b ∧ b ≤ 0xbf ∨ 0xe1 ≤ a ∧ a ≤ 0xec ∧ Tail b ∨
        a = 0xed ∧ 0x80 ≤ b ∧ b ≤ 0x9f ∨ 0xee ≤ a ∧ a ≤ 0xef ∧ Tail b)
      (hc : Tail c) : Unescaped [a, b, c]
  | four {a b c d : UInt8}
      (hab : a = 0xf0 ∧ 0x90 ≤ b ∧ b ≤ 0xbf ∨ 0xf1 ≤ a ∧ a ≤ 0xf3 ∧ Tail b ∨
        a = 0xf4 ∧ 0x80 ≤ b ∧ b ≤ 0x8f)
      (hc : Tail c) (hd : Tail d) : Unescaped [a, b, c, d]

/-- Four hexadecimal digits and what they spell. -/
inductive Hex4 : Nat → List UInt8 → Prop where
  | mk {a b c d : UInt8} (ha : isHexdigit a) (hb : isHexdigit b) (hc : isHexdigit c)
      (hd : isHexdigit d) :
      Hex4 (((hexDigitValue a * 16 + hexDigitValue b) * 16 + hexDigitValue c) * 16 +
        hexDigitValue d) [a, b, c, d]

def High (code : Nat) : Prop := 0xd800 ≤ code ∧ code ≤ 0xdbff
def Low (code : Nat) : Prop := 0xdc00 ≤ code ∧ code ≤ 0xdfff

/-- An escape: a letter, a code that is no surrogate, or a pair of surrogates. -/
inductive Escape : List UInt8 → Prop where
  | simple {c : UInt8} (hc : c ∈ [quote, backslash, slash] ++ ['b', 'f', 'n', 'r',
      't'].map letter) :
      Escape [backslash, c]
  | code {n : Nat} {digits : List UInt8} (hdigits : Hex4 n digits) (hhigh : ¬ High n)
      (hlow : ¬ Low n) : Escape (backslash :: letter 'u' :: digits)
  | pair {hi lo : Nat} {digits digits' : List UInt8} (hdigits : Hex4 hi digits) (hhigh : High hi)
      (hdigits' : Hex4 lo digits') (hlow : Low lo) :
      Escape (backslash :: letter 'u' :: (digits ++ backslash :: letter 'u' :: digits'))

/-- What stands between the quotes of a string. -/
inductive Chars : List UInt8 → Prop where
  | nil : Chars []
  | unescaped {c chars : List UInt8} (hc : Unescaped c) (hchars : Chars chars) : Chars (c ++ chars)
  | escape {e chars : List UInt8} (he : Escape e) (hchars : Chars chars) : Chars (e ++ chars)

end Strings

section Numbers

def Digit (b : UInt8) : Prop := 0x30 ≤ b ∧ b ≤ 0x39

attribute [grind =] Digit

instance : DecidablePred Digit := fun _ => inferInstanceAs (Decidable (_ ∧ _))

/-- An integer without leading zeros. -/
inductive IntPart : List UInt8 → Prop where
  | zero : IntPart [zero]
  | digits {b : UInt8} {bs : List UInt8} (hb : Digit b) (hzero : b ≠ zero)
      (hbs : ∀ c ∈ bs, Digit c) :
      IntPart (b :: bs)

inductive FracPart : List UInt8 → Prop where
  | none : FracPart []
  | some {bs : List UInt8} (hne : bs ≠ []) (hbs : ∀ b ∈ bs, Digit b) : FracPart (point :: bs)

inductive ExpPart : List UInt8 → Prop where
  | none : ExpPart []
  | some {e : UInt8} {sign bs : List UInt8} (he : e = letter 'e' ∨ e = letter 'E')
      (hsign : sign = [] ∨ sign = [minus] ∨ sign = [plus]) (hne : bs ≠ [])
      (hbs : ∀ b ∈ bs, Digit b) : ExpPart (e :: (sign ++ bs))

/-- A number that `tail` does not go on with: no digit comes next, no exponent where it has
none, and no point where it has no fraction either. -/
inductive NumberAt (tail : List UInt8) : List UInt8 → Prop where
  | mk {sign int frac exp : List UInt8} (hsign : sign = [] ∨ sign = [minus]) (hint : IntPart int)
      (hfrac : FracPart frac) (hexp : ExpPart exp)
      (hdigit : ∀ b ∈ tail.head?, ¬ Digit b)
      (hnext : exp = [] → ∀ b ∈ tail.head?, b ≠ letter 'e' ∧ b ≠ letter 'E' ∧
        (frac = [] → b ≠ point)) :
      NumberAt tail (sign ++ (int ++ (frac ++ exp)))

def Number (bytes : List UInt8) : Prop := NumberAt [] bytes

/-- The bytes of a value that are a number are all of the number that starts there. -/
def Delimited (value tail : List UInt8) : Prop := Number value → NumberAt tail value

end Numbers

section Values

def IsWs (b : UInt8) : Prop := b = 0x20 ∨ b = 0x09 ∨ b = 0x0a ∨ b = 0x0d

instance : DecidablePred IsWs := fun _ => inferInstanceAs (Decidable (_ ∨ _))

def Ws (bytes : List UInt8) : Prop := ∀ b ∈ bytes, IsWs b

/-- One level deeper, as an `i32`. -/
def level (depth : Int) : Int := (depth + 1 + 2 ^ 31) % 2 ^ 32 - 2 ^ 31

def literals : List (List UInt8) := ["null", "true", "false"].map fun l => l.toList.map letter

/-- A key and the colon after it. -/
inductive Key : List UInt8 → Prop where
  | mk {before chars after : List UInt8} (hbefore : Ws before) (hchars : Chars chars)
      (hafter : Ws after) :
      Key (before ++ (quote :: (chars ++ [quote]) ++ (after ++ [colon])))

mutual

/-- The values that start at a level and nest to `maxDepth` at most. -/
inductive Value (maxDepth : Int) : Int → List UInt8 → Prop where
  | literal {depth : Int} {bytes : List UInt8} (h : bytes ∈ literals) : Value maxDepth depth bytes
  | number {depth : Int} {bytes : List UInt8} (h : Number bytes) : Value maxDepth depth bytes
  | string {depth : Int} {chars : List UInt8} (h : Chars chars) :
      Value maxDepth depth (quote :: (chars ++ [quote]))
  | array {depth : Int} {body : List UInt8} (hlevel : level depth ≤ maxDepth)
      (h : Elements maxDepth (level depth) body) : Value maxDepth depth (openBracket :: body)
  | emptyArray {depth : Int} {ws : List UInt8} (hlevel : level depth ≤ maxDepth) (hws : Ws ws) :
      Value maxDepth depth (openBracket :: (ws ++ [closeBracket]))
  | object {depth : Int} {body : List UInt8} (hlevel : level depth ≤ maxDepth)
      (h : Members maxDepth (level depth) body) : Value maxDepth depth (openBrace :: body)
  | emptyObject {depth : Int} {ws : List UInt8} (hlevel : level depth ≤ maxDepth) (hws : Ws ws) :
      Value maxDepth depth (openBrace :: (ws ++ [closeBrace]))

/-- The elements of an array, to its closing bracket. -/
inductive Elements (maxDepth : Int) : Int → List UInt8 → Prop where
  | last {depth : Int} {before value after : List UInt8} (hbefore : Ws before)
      (hvalue : Value maxDepth depth value) (hafter : Ws after) :
      Elements maxDepth depth (before ++ (value ++ (after ++ [closeBracket])))
  | cons {depth : Int} {before value after body : List UInt8} (hbefore : Ws before)
      (hvalue : Value maxDepth depth value) (hafter : Ws after)
      (hbody : Elements maxDepth depth body) :
      Elements maxDepth depth (before ++ (value ++ (after ++ comma :: body)))

/-- The members of an object, to its closing brace. -/
inductive Members (maxDepth : Int) : Int → List UInt8 → Prop where
  | last {depth : Int} {key before value after : List UInt8} (hkey : Key key) (hbefore : Ws before)
      (hvalue : Value maxDepth depth value) (hafter : Ws after) :
      Members maxDepth depth (key ++ (before ++ (value ++ (after ++ [closeBrace]))))
  | cons {depth : Int} {key before value after body : List UInt8} (hkey : Key key)
      (hbefore : Ws before) (hvalue : Value maxDepth depth value) (hafter : Ws after)
      (hbody : Members maxDepth depth body) :
      Members maxDepth depth (key ++ (before ++ (value ++ (after ++ comma :: body))))

end

end Values

end Json

end Wado

/-
What the scanners of JSON's tokens pass over: whitespace, single bytes and literals.
-/

namespace Wado

namespace Json

open ExceptSteps

/-- A fact of every byte, by its two hexadecimal digits. -/
theorem forall_byte {p : UInt8 → Prop} (h : ∀ i < 16, ∀ j < 16, p (UInt8.ofNat (16 * i + j)))
    (b : UInt8) : p b := by
  have hlt := b.toNat_lt
  have hb := h (b.toNat / 16) (by omega) (b.toNat % 16) (by omega)
  rwa [Nat.div_add_mod, UInt8.ofNat_toNat] at hb

namespace JsonDeserializer

/-- `s` is `de` with `bytes` read. -/
structure Passes (de : JsonDeserializer) (bytes : List UInt8) (s : JsonDeserializer) : Prop where
  rest : de.rest = bytes ++ s.rest
  eq : s = de.after bytes.length

section Passes

variable {self s u : JsonDeserializer} {a b : List UInt8}

theorem after_zero (self : JsonDeserializer) : self.after 0 = self := rfl

theorem after_after (self : JsonDeserializer) (m n : Nat) :
    (self.after m).after n = self.after (m + n) := by
  simp [after, List.drop_drop, Nat.add_assoc]

theorem Passes.nil (self : JsonDeserializer) : Passes self [] self := ⟨rfl, rfl⟩

theorem Passes.of_rest {tail : List UInt8} (h : self.rest = a ++ tail) :
    Passes self a (self.after a.length) ∧ (self.after a.length).rest = tail := by
  have hrest : (self.after a.length).rest = tail := by
    change self.rest.drop a.length = tail
    rw [h, List.drop_left]
  exact ⟨⟨by rw [hrest, h], rfl⟩, hrest⟩

theorem Passes.trans (h : Passes self a s) (h' : Passes s b u) : Passes self (a ++ b) u := by
  constructor
  · rw [h.rest, h'.rest, List.append_assoc]
  · rw [h'.eq, h.eq, after_after, List.length_append]

/-- Passing over the first part leaves the second to be passed over. -/
theorem Passes.split (h : Passes self (a ++ b) u) : ∃ s, Passes self a s ∧ Passes s b u := by
  have hrest := h.rest
  rw [List.append_assoc] at hrest
  obtain ⟨hpasses, htail⟩ := Passes.of_rest hrest
  refine ⟨self.after a.length, hpasses, htail, ?_⟩
  rw [after_after, ← List.length_append]
  exact h.eq

section

variable (h : Passes self a s)
include h

theorem Passes.maxDepth : s.maxDepth = self.maxDepth := by
  rw [h.eq]
  rfl

theorem Passes.depth : s.depth = self.depth := by
  rw [h.eq]
  rfl

theorem Passes.firstEntry : s.firstEntry = self.firstEntry := by
  rw [h.eq]
  rfl

theorem Passes.pos : s.pos = self.pos + a.length := by
  rw [h.eq]
  rfl

theorem Passes.length : self.rest.length = a.length + s.rest.length := by
  rw [h.rest, List.length_append]

end

/-- The next byte. -/
theorem Passes.head {c : UInt8} (hrest : self.rest.head? = some c) :
    Passes self [c] (self.after 1) := by
  cases hlist : self.rest with
  | nil => simp [hlist] at hrest
  | cons d rest =>
    obtain rfl : d = c := by simpa [hlist] using hrest
    exact (Passes.of_rest (a := [d]) hlist).1

theorem Passes.head? {c : UInt8} (h : Passes self (c :: a) s) : self.rest.head? = some c := by
  rw [h.rest]
  rfl

/-- What is read decides where the reading ends. -/
theorem Passes.unique (h : Passes self a s) (h' : Passes self a u) : s = u := by
  rw [h.eq, h'.eq]

end Passes

variable {self s : JsonDeserializer}

section Whitespace

theorem jsonWsEnd_eq_false {b : UInt8} : jsonWsEnd b = false ↔ IsWs b := by
  by_cases hb : b ≤ 0x20
  · have hle : b.toNat ≤ 32 := hb
    have hall : ∀ i ≤ 32, jsonWsEnd (UInt8.ofNat i) = false ↔ IsWs (UInt8.ofNat i) := by decide
    have h := hall b.toNat hle
    rwa [UInt8.ofNat_toNat] at h
  · have hgt : b > 0x20 := UInt8.not_le.mp hb
    have hne : b ≠ 0x20 := fun h => hb (h ▸ UInt8.le_refl _)
    constructor
    · intro h
      simp [jsonWsEnd, hgt, hne] at h
    · rintro (rfl | rfl | rfl | rfl) <;> exact absurd (by decide) hb

theorem jsonWsEnd_eq_true {b : UInt8} : jsonWsEnd b = true ↔ ¬ IsWs b := by
  rw [← jsonWsEnd_eq_false, Bool.not_eq_false]

/-- The whitespace at the start of `rest`. -/
def leading (rest : List UInt8) : List UInt8 := rest.takeWhile fun b => ¬ jsonWsEnd b

variable (rest : List UInt8)

theorem whitespaceRun_eq : whitespaceRun rest = (leading rest).length := by
  fun_induction whitespaceRun rest <;> simp_all [leading]

theorem ws_leading : Ws (leading rest) := by
  intro b hb
  have hws := List.all_eq_true.mp List.all_takeWhile b hb
  rw [← jsonWsEnd_eq_false]
  simpa using hws

theorem head_after_leading :
    ∀ b ∈ (rest.dropWhile fun b => ¬ jsonWsEnd b).head?, ¬ IsWs b := by
  intro b hb
  rw [← jsonWsEnd_eq_true]
  induction rest with
  | nil => simp at hb
  | cons c rest ih =>
    by_cases hc : jsonWsEnd c = true
    · simp [hc] at hb
      rwa [← hb]
    · exact ih (by simpa [hc] using hb)

/-- The fast paths of the scan stop where the run ends. -/
theorem peekAfterWhitespace_eq (self : JsonDeserializer) : self.peekAfterWhitespace =
      ((self.after (leading self.rest).length).rest.head?,
        self.after (leading self.rest).length) := by
  unfold peekAfterWhitespace
  cases hrest : self.rest with
  | nil =>
    change _ = (self.rest.head?, self)
    rw [hrest]
    rfl
  | cons b rest =>
    by_cases hb : jsonWsEnd b = true
    · have hlen : (leading (b :: rest)).length = 0 := by simp [leading, hb]
      rw [hlen]
      change _ = (self.rest.head?, self)
      simp [hb, hrest]
    · cases rest with
      | nil => simp [leading, hb, after, hrest]
      | cons next rest =>
        by_cases hnext : jsonWsEnd next = true
        · simp [leading, hb, hnext, after, hrest]
        · have hlen : (leading (b :: next :: rest)).length = 2 + whitespaceRun rest := by
            rw [whitespaceRun_eq]
            simp [leading, hb, hnext]
            omega
          rw [hlen]
          simp [hb, hnext, peekAfterWhitespaceRun, hrest]

theorem peek_passes (self : JsonDeserializer) :
    ∃ ws s, Ws ws ∧ Passes self ws s ∧ self.peekAfterWhitespace = (s.rest.head?, s) ∧
      ∀ b ∈ s.rest.head?, ¬ IsWs b := by
  have hrest : self.rest = leading self.rest ++ self.rest.dropWhile fun b => ¬ jsonWsEnd b :=
    (List.takeWhile_append_dropWhile).symm
  obtain ⟨hpasses, htail⟩ := Passes.of_rest hrest
  refine ⟨leading self.rest, _, ws_leading self.rest, hpasses, peekAfterWhitespace_eq self, ?_⟩
  rw [htail]
  exact head_after_leading self.rest

/-- The scan takes all whitespace there is. -/
theorem peek_eq {ws : List UInt8} (hws : Ws ws)
    (h : Passes self ws s) (hstop : ∀ b ∈ s.rest.head?, ¬ IsWs b) :
    self.peekAfterWhitespace = (s.rest.head?, s) := by
  have hleading : leading self.rest = ws := by
    rw [h.rest, leading, List.takeWhile_append_of_pos fun b hb => by
      simpa using jsonWsEnd_eq_false.mpr (hws b hb)]
    cases hrest : s.rest with
    | nil => simp
    | cons b rest =>
      have hb : jsonWsEnd b = true := jsonWsEnd_eq_true.mpr (hstop b (by simp [hrest]))
      simp [hb]
  rw [peekAfterWhitespace_eq, hleading, ← h.eq]

theorem ws_nil : Ws [] := by
  intro b hb
  cases hb

theorem Ws.append {ws ws' : List UInt8} (h : Ws ws) (h' : Ws ws') : Ws (ws ++ ws') := by
  intro b hb
  rcases List.mem_append.mp hb with hb | hb
  · exact h b hb
  · exact h' b hb

theorem expectChar_eq_ok {c : UInt8} (hc : ¬ IsWs c) :
    self.expectChar c = .ok s ↔ ∃ ws, Ws ws ∧ Passes self (ws ++ [c]) s := by
  constructor
  · intro h
    obtain ⟨ws, t, hws, hpasses, hpeek, _⟩ := self.peek_passes
    unfold expectChar at h
    rw [hpeek] at h
    by_cases heq : t.rest.head? = some c
    · simp only [heq, if_pos] at h
      cases h
      exact ⟨ws, hws, hpasses.trans (Passes.head heq)⟩
    · simp only [heq, if_neg, not_false_iff] at h
      unfold tokenStopError fail at h
      split_ifs at h
  · rintro ⟨ws, hws, hpasses⟩
    obtain ⟨t, ht, hc'⟩ := hpasses.split
    have hhead := hc'.head?
    have hpeek := peek_eq hws ht (by
      rw [hhead]
      rintro b ⟨⟩
      exact hc)
    unfold expectChar
    rw [hpeek, hhead]
    change (if some c = some c then Except.ok (t.after 1) else _) = _
    rw [if_pos rfl, hc'.eq]
    rfl

end Whitespace

section Literals

theorem expectLiteral_eq_ok {literal : String} :
    self.expectLiteral literal = .ok s ↔ Passes self (literal.toList.map letter) s := by
  unfold expectLiteral
  have hlength : (literal.toList.map letter).length = literal.length := by
    rw [List.length_map, String.length_toList]
  constructor
  · intro h
    by_cases hpre : literal.toList.map letter <+: self.rest
    · rw [if_pos hpre] at h
      cases h
      obtain ⟨tail, htail⟩ := hpre
      rw [← hlength]
      exact (Passes.of_rest htail.symm).1
    · rw [if_neg hpre] at h
      cases h
  · intro h
    rw [if_pos ⟨s.rest, h.rest.symm⟩, h.eq, hlength]

end Literals

end JsonDeserializer

end Json

end Wado
