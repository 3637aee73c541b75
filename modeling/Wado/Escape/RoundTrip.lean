/-
The text an encoder writes denotes what was encoded.
-/
import Wado.Escape.Denotes

namespace Wado.Escape

open ExceptSteps

/-- No character stands for itself after a backslash. -/
abbrev noneStands : Char → Bool := fun _ => false

theorem standing_noneStands (chars : List Char) : standing noneStands chars = none := by
  cases chars <;> rfl

theorem hexText_control (n : Nat) (hn : n < 0xa0) :
    hexText n ≠ [] ∧ AllHex (hexText n) ∧ hexNumber (hexText n) = n := by
  have hall : ∀ n : Fin 0xa0, hexText n.val ≠ [] ∧ (hexText n.val).all isHexDigit = true ∧
      hexNumber (hexText n.val) = n.val := by
    set_option maxRecDepth 4000 in decide
  obtain ⟨hne, hhex, hnumber⟩ := hall ⟨n, hn⟩
  exact ⟨hne, List.all_eq_true.mp hhex, hnumber⟩

theorem toNat_lt_of_isControl {c : Char} (h : isControl c = true) : c.toNat < 0xa0 := by
  simp only [isControl, Bool.or_eq_true, Bool.and_eq_true, decide_eq_true_eq] at h
  omega

variable {raw text : List Char}

theorem denotes_named {letter c : Char} (hnamed : namedEscape letter = some c)
    (h : Denotes noneStands raw text) : Denotes noneStands ('\\' :: letter :: raw) (c :: text) :=
  .escape [letter] c ⟨.named letter c hnamed, standing_noneStands _⟩ h

theorem denotes_control {c : Char} (hc : isControl c = true) (h : Denotes noneStands raw text) :
    Denotes noneStands (['\\', 'u', '\x7b'] ++ hexText c.toNat ++ ['\x7d'] ++ raw) (c :: text) := by
  obtain ⟨hne, hhex, hnumber⟩ := hexText_control c.toNat (toNat_lt_of_isControl hc)
  have hvalid : (hexNumber (hexText c.toNat)).isValidChar := by
    rw [hnumber]
    exact c.valid
  have hescape := EscapeOf.braced (hexText c.toNat) hne hhex hvalid
  rw [hnumber, Char.ofNat_toNat] at hescape
  have hdenotes := Denotes.escape _ c ⟨hescape, standing_noneStands _⟩ h
  simpa using hdenotes

theorem denotes_pushEscaped {raw text : List Char} (c : Char) {quote : Char}
    (hquote : namedEscape quote = some quote) (h : Denotes noneStands raw text) :
    Denotes noneStands (pushEscaped c quote ++ raw) (c :: text) := by
  unfold pushEscaped
  split_ifs with hq hslash hn hr ht h0 hcontrol
  · subst hq
    exact denotes_named hquote h
  · subst hslash
    exact denotes_named rfl h
  · subst hn
    exact denotes_named rfl h
  · subst hr
    exact denotes_named rfl h
  · subst ht
    exact denotes_named rfl h
  · subst h0
    exact denotes_named rfl h
  · exact denotes_control hcontrol h
  · exact .plain c hslash h

theorem denotes_escapeString (s : List Char) : Denotes noneStands (escapeString s) s := by
  induction s with
  | nil => exact .nil
  | cons c s ih =>
    rw [escapeString, List.flatMap_cons]
    exact denotes_pushEscaped c rfl ih

theorem denotes_escapeChar (c : Char) : Denotes noneStands (escapeChar c) [c] := by
  have hdenotes := @denotes_pushEscaped [] [] c '\x27' rfl .nil
  rwa [List.append_nil] at hdenotes

theorem unescapeString_eq_ok (raw text : List Char) :
    unescapeString raw = .ok text ↔ Denotes noneStands raw text :=
  unescapeBody_eq_ok raw text

/-- Decoding inverts encoding, of strings and of characters, and the decoder
accepts a text just when it denotes one, every high half with the low half right
after it. -/
theorem unescape_inverts_escape : (∀ s, unescapeString (escapeString s) = .ok s) ∧
    (∀ c, unescapeChar (escapeChar c) = .ok c) ∧
    ∀ raw text, unescapeString raw = .ok text ↔ Denotes noneStands raw text := by
  refine ⟨?_, ?_, unescapeString_eq_ok⟩
  · intro s
    exact (unescapeString_eq_ok _ _).mpr (denotes_escapeString s)
  · intro c
    rw [unescapeChar, (unescapeString_eq_ok _ _).mpr (denotes_escapeChar c)]
    rfl

end Wado.Escape
