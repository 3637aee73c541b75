/-
What the reader of TOML makes of rows whose strings are in Rust's debug form: the rows, or
nothing where a string has a character whose escape TOML does not have.
-/
import Wado.Toml

namespace Toml

open List

/-- `r` is `a` where `P` holds, and a refusal elsewhere. -/
def Reads {α : Type} (P : Prop) (a : α) (r : Except Stop α) : Prop :=
  (P → r = .ok a) ∧ (¬ P → r = .error .invalid)

namespace Reads

variable {α β : Type} {P Q : Prop} {a : α} {b : β} {r : Except Stop α}

theorem ok (a : α) : Reads True a (.ok a) := ⟨fun _ => rfl, fun h => absurd trivial h⟩

theorem of_not (h : ¬ P) : Reads P a (.error .invalid) := ⟨fun hP => absurd hP h, fun _ => rfl⟩

theorem congr (h : Reads P a r) (hiff : P ↔ Q) : Reads Q a r :=
  ⟨fun hQ => h.1 (hiff.mpr hQ), fun hQ => h.2 fun hP => hQ (hiff.mp hP)⟩

theorem bind {f : α → Except Stop β} (h : Reads P a r) (hf : Reads Q b (f a)) :
    Reads (P ∧ Q) b (r >>= f) := by
  constructor
  · rintro ⟨hP, hQ⟩
    rw [h.1 hP]
    exact hf.1 hQ
  · intro hnot
    by_cases hP : P
    · rw [h.1 hP]
      exact hf.2 fun hQ => hnot ⟨hP, hQ⟩
    · rw [h.2 hP]
      rfl

/-- A step that only shapes what was read. -/
theorem bind_ok {f : α → Except Stop β} (h : Reads P a r) (hf : f a = .ok b) :
    Reads P b (r >>= f) := by
  have hok := ok b
  rw [← hf] at hok
  exact (h.bind hok).congr (and_iff_left trivial)

end Reads

variable (s rest : Text) (n : Nat)

section Strings

open EscapeDebug

variable {t : CharTable}

/-- TOML has the escape of the debug form of `c`, or the form is `c` itself. -/
def Readable (t : CharTable) (c : Char) : Prop :=
  c.toNat ≠ 0 ∧ (t.unicode c = false ∨ c = '\t' ∨ c = '\r' ∨ c = '\n' ∨ c = '\\' ∨ c = '"')

def AllReadable (t : CharTable) (s : Text) : Prop := ∀ c ∈ s, Readable t c

instance (t : CharTable) : DecidablePred (Readable t) :=
  fun _ => inferInstanceAs (Decidable (_ ∧ _))

instance (t : CharTable) : DecidablePred (AllReadable t) :=
  fun s => List.decidableBAll (Readable t) s

theorem Reads.push {P : Prop} {s rest : Text} {r : Except Stop (Text × Text)} (c : Char)
    (h : Reads P (s, rest) r) : Reads P (c :: s, rest) (Toml.push c r) := by
  constructor
  · intro hP
    rw [h.1 hP]
    rfl
  · intro hP
    rw [h.2 hP]
    rfl

theorem readBasic_simple {letter c : Char} (h : simpleEscape letter = some c) (rest : Text) :
    readBasic .plain ('\\' :: letter :: rest) = push c (readBasic .plain rest) := by
  rw [readBasic, if_neg (by decide), if_pos rfl, readBasic, h]

theorem readBasic_self {c : Char} (hquote : c ≠ '"') (hslash : c ≠ '\\')
    (hcontrol : isControl c = false) (rest : Text) :
    readBasic .plain (c :: rest) = push c (readBasic .plain rest) := by
  rw [readBasic, if_neg hquote, if_neg hslash, if_neg (by simp [hcontrol])]

/-- The code in braces that Rust writes is no code of TOML. -/
theorem readBasic_braces (rest : Text) :
    readBasic .plain ('\\' :: 'u' :: '{' :: rest) = .error .invalid := by
  rw [readBasic, if_neg (by decide), if_pos rfl, readBasic]
  rfl

theorem readBasic_nul (rest : Text) : readBasic .plain ('\\' :: '0' :: rest) = .error .invalid := by
  rw [readBasic, if_neg (by decide), if_pos rfl, readBasic]
  rfl

theorem isControl_of_unicode {c : Char} (h : t.unicode c = false) : isControl c = false := by
  have hcontrol (hc : c.toNat < 0x20 ∨ c.toNat = 0x7f) : False := by
    simpa [h] using t.control c hc
  simp only [isControl, decide_eq_false_iff_not]
  rintro (⟨hlt, _⟩ | heq)
  · exact hcontrol (.inl hlt)
  · exact hcontrol (.inr heq)

/-- One character, escaped, then the rest of the string. -/
theorem readBasic_escape {P : Prop} {s rest tail : Text} (c : Char)
    (h : Reads P (s, rest) (readBasic .plain tail)) :
    Reads (Readable t c ∧ P) (c :: s, rest) (readBasic .plain (escape t c ++ tail)) := by
  have simple {letter : Char} (hesc : simpleEscape letter = some c) (hread : Readable t c) :
      Reads (Readable t c ∧ P) (c :: s, rest) (readBasic .plain ('\\' :: letter :: tail)) := by
    rw [readBasic_simple hesc]
    exact (h.push c).congr (and_iff_right hread).symm
  unfold escape
  by_cases hnul : c.toNat = 0
  · rw [if_pos hnul]
    change Reads _ _ (readBasic .plain ('\\' :: '0' :: tail))
    rw [readBasic_nul]
    exact Reads.of_not fun h => h.1.1 hnul
  rw [if_neg hnul]
  by_cases htab : c = '\t'
  · rw [if_pos htab]
    exact simple (by rw [htab]; rfl) ⟨hnul, by simp [htab]⟩
  rw [if_neg htab]
  by_cases hcr : c = '\r'
  · rw [if_pos hcr]
    exact simple (by rw [hcr]; rfl) ⟨hnul, by simp [hcr]⟩
  rw [if_neg hcr]
  by_cases hlf : c = '\n'
  · rw [if_pos hlf]
    exact simple (by rw [hlf]; rfl) ⟨hnul, by simp [hlf]⟩
  rw [if_neg hlf]
  by_cases hslash : c = '\\'
  · rw [if_pos hslash]
    exact simple (by rw [hslash]; rfl) ⟨hnul, by simp [hslash]⟩
  rw [if_neg hslash]
  by_cases hquote : c = '"'
  · rw [if_pos hquote]
    exact simple (by rw [hquote]; rfl) ⟨hnul, by simp [hquote]⟩
  rw [if_neg hquote]
  by_cases hunicode : t.unicode c = true
  · rw [if_pos hunicode]
    change Reads _ _ (readBasic .plain ('\\' :: 'u' :: '{' :: _))
    rw [readBasic_braces]
    apply Reads.of_not
    rintro ⟨⟨_, hread⟩, _⟩
    simp [hunicode, htab, hcr, hlf, hslash, hquote] at hread
  · rw [if_neg hunicode]
    have hfalse : t.unicode c = false := by simpa using hunicode
    change Reads _ _ (readBasic .plain (c :: tail))
    rw [readBasic_self hquote hslash (isControl_of_unicode hfalse)]
    exact (h.push c).congr (and_iff_right ⟨hnul, .inl hfalse⟩).symm

theorem readBasic_debug : Reads (AllReadable t s) (s, rest)
      (readBasic .plain (s.flatMap (escape t) ++ '"' :: rest)) := by
  induction s with
  | nil => exact (Reads.ok _).congr (by simp [AllReadable])
  | cons c s ih =>
    rw [flatMap_cons, append_assoc]
    exact (readBasic_escape c ih).congr (by simp [AllReadable])

theorem escape_head (c : Char) : ∃ x s, escape t c = x :: s ∧ x ≠ '"' := by
  unfold escape
  split_ifs <;> first | exact ⟨_, _, rfl, by decide⟩ | exact ⟨_, _, rfl, by assumption⟩

/-- A string in its debug form, its opening quote read. -/
theorem readString_debug (hrest : rest.head? ≠ some '"') :
    Reads (AllReadable t s) (s, rest) (readString (s.flatMap (escape t) ++ '"' :: rest)) := by
  have hplain : readString (s.flatMap (escape t) ++ '"' :: rest) =
      readBasic .plain (s.flatMap (escape t) ++ '"' :: rest) := by
    unfold readString
    split
    · next tail heq =>
        cases s with
        | nil =>
          rw [flatMap_nil, nil_append] at heq
          obtain rfl := List.cons.inj heq |>.2
          simp at hrest
        | cons c s =>
          obtain ⟨x, s', hx, hne⟩ := escape_head (t := t) c
          rw [flatMap_cons, hx] at heq
          exact absurd (List.cons.inj heq).1 hne
    · rfl
  rw [hplain]
  exact readBasic_debug s rest

theorem newline_ne_digitChar : ∀ d < 16, '\n' ≠ d.digitChar := by decide

theorem newline_not_mem_toDigits : '\n' ∉ Nat.toDigits 16 n := by
  induction n using Nat.strongRecOn with
  | ind n ih =>
    rw [Nat.toDigits_eq_if (by decide)]
    by_cases hlt : n < 16
    · rw [if_pos hlt, mem_singleton]
      exact newline_ne_digitChar n hlt
    · rw [if_neg hlt, mem_append, mem_singleton, not_or]
      exact ⟨ih (n / 16) (by omega), newline_ne_digitChar _ (Nat.mod_lt n (by decide))⟩

theorem newline_not_mem_escape (c : Char) : '\n' ∉ escape t c := by
  unfold escape
  split_ifs with h0 h1 h2 h3 h4 h5 h6
  · decide
  · decide
  · decide
  · decide
  · decide
  · decide
  · simp [newline_not_mem_toDigits]
  · simpa using fun h => h3 h.symm

/-- The debug form keeps to its line. -/
theorem newline_not_mem_debug (s : Text) : '\n' ∉ debug t s := by
  simp only [debug, mem_cons, mem_append, mem_flatMap, not_or]
  refine ⟨by decide, ?_, by decide⟩
  rintro ⟨c, _, h⟩
  exact newline_not_mem_escape c h

end Strings

variable (value : Value)

section Values

open EscapeDebug

variable (t : CharTable)

/-- An entry of an inline table, as it is written. -/
def entryText (entry : Text × Text) : Text :=
  debug t entry.1 ++ " = ".toList ++ debug t entry.2

def EntryReadable (entry : Text × Text) : Prop := AllReadable t entry.1 ∧ AllReadable t entry.2

/-- A value, as a lock file has it on a line. -/
def Value.text : Value → Text
  | string s => debug t s
  | integer n => Nat.toDigits 10 n
  | boolean b => if b then "true".toList else "false".toList
  | strings items => '[' :: (", ".toList.intercalate (items.map (debug t)) ++ [']'])
  | table entries =>
    '{' :: ' ' :: (", ".toList.intercalate (entries.map (entryText t)) ++ [' ', '}'])

attribute [grind =] Value.text

/-- A value all of whose strings TOML reads back. -/
def Value.Readable : Value → Prop
  | string s => AllReadable t s
  | strings items => ∀ s ∈ items, AllReadable t s
  | table entries => ∀ entry ∈ entries, EntryReadable t entry
  | _ => True

attribute [grind =] Value.Readable

/-- An inline table that has entries, no two of one key. -/
def Value.Formed : Value → Prop
  | table entries => entries ≠ [] ∧ (keys entries).Nodup
  | _ => True

variable {t}

theorem intercalate_cons (sep a : Text) (l : List Text) :
    sep.intercalate (a :: l) = a ++ l.flatMap (sep ++ ·) := by
  induction l generalizing a with
  | nil => simp [List.intercalate]
  | cons b l ih =>
    have hstep : sep.intercalate (a :: b :: l) = a ++ sep ++ sep.intercalate (b :: l) := by
      simp [List.intercalate, List.intersperse]
    rw [hstep, ih, flatMap_cons, append_assoc, append_assoc]

theorem debug_append :
    debug t s ++ rest = '"' :: (s.flatMap (escape t) ++ '"' :: rest) := by
  simp [debug]

/-- The items after the first. -/
def itemsTail (t : CharTable) (items : List Text) : Text :=
  (items.map (debug t)).flatMap (", ".toList ++ ·)

theorem readItems_debug (items : List Text) (item : Text) (rest : Text) (fuel : Nat)
    (hfuel : items.length < fuel) :
    Reads (∀ s ∈ item :: items, AllReadable t s) (item :: items, rest)
      (readItems fuel (debug t item ++ (itemsTail t items ++ ']' :: rest))) := by
  induction items generalizing item fuel with
  | nil =>
    obtain ⟨fuel, rfl⟩ := Nat.exists_eq_add_one_of_ne_zero (Nat.ne_zero_of_lt hfuel)
    rw [debug_append]
    have hstring := readString_debug (t := t) item (']' :: rest) (by simp)
    refine Reads.congr (hstring.bind_ok ?_) forall_mem_singleton.symm
    rfl
  | cons next items ih =>
    obtain ⟨fuel, rfl⟩ := Nat.exists_eq_add_one_of_ne_zero (Nat.ne_zero_of_lt hfuel)
    rw [debug_append]
    have htail : itemsTail t (next :: items) ++ ']' :: rest =
        ',' :: ' ' :: (debug t next ++ (itemsTail t items ++ ']' :: rest)) := by
      simp [itemsTail]
    rw [htail]
    have hstring := readString_debug (t := t) item
      (',' :: ' ' :: (debug t next ++ (itemsTail t items ++ ']' :: rest))) (by simp)
    have hitems := ih next fuel (by simpa using hfuel)
    have hskip : readItems fuel (' ' :: (debug t next ++ (itemsTail t items ++ ']' :: rest))) =
        readItems fuel (debug t next ++ (itemsTail t items ++ ']' :: rest)) := by
      cases fuel <;> rfl
    rw [← hskip] at hitems
    refine Reads.congr (hstring.bind ?_) forall_mem_cons.symm
    exact hitems.bind_ok rfl

variable (entry : Text × Text)

theorem entryText_append (rest : Text) : entryText t entry ++ rest =
      '"' :: (entry.1.flatMap (escape t) ++
        '"' :: ' ' :: '=' :: ' ' :: '"' :: (entry.2.flatMap (escape t) ++ '"' :: rest)) := by
  simp [entryText, debug]

theorem readPair_entry (rest : Text) (hrest : rest.head? ≠ some '"') :
    Reads (EntryReadable t entry) (entry, rest)
      (readPair (entry.1.flatMap (escape t) ++
        '"' :: ' ' :: '=' :: ' ' :: '"' :: (entry.2.flatMap (escape t) ++ '"' :: rest))) := by
  have hkey := readString_debug (t := t) entry.1
    (' ' :: '=' :: ' ' :: '"' :: (entry.2.flatMap (escape t) ++ '"' :: rest)) (by simp)
  have hvalue := readString_debug (t := t) entry.2 rest hrest
  refine Reads.bind hkey ?_
  exact hvalue.bind_ok rfl

/-- The entries after the first. -/
def entriesTail (t : CharTable) (entries : List (Text × Text)) : Text :=
  (entries.map (entryText t)).flatMap (", ".toList ++ ·)

theorem readPairs_entries (entries : List (Text × Text)) (entry : Text × Text) (rest : Text)
    (fuel : Nat) (hfuel : entries.length < fuel) :
    Reads (∀ e ∈ entry :: entries, EntryReadable t e) (entry :: entries, rest)
      (readPairs fuel (entryText t entry ++ (entriesTail t entries ++ ' ' :: '}' :: rest))) := by
  induction entries generalizing entry fuel with
  | nil =>
    obtain ⟨fuel, rfl⟩ := Nat.exists_eq_add_one_of_ne_zero (Nat.ne_zero_of_lt hfuel)
    rw [entryText_append]
    have hpair := readPair_entry (t := t) entry (' ' :: '}' :: rest) (by simp)
    refine Reads.congr (hpair.bind_ok ?_) forall_mem_singleton.symm
    rfl
  | cons next entries ih =>
    obtain ⟨fuel, rfl⟩ := Nat.exists_eq_add_one_of_ne_zero (Nat.ne_zero_of_lt hfuel)
    rw [entryText_append]
    have htail : entriesTail t (next :: entries) ++ ' ' :: '}' :: rest =
        ',' :: ' ' :: (entryText t next ++ (entriesTail t entries ++ ' ' :: '}' :: rest)) := by
      simp [entriesTail]
    rw [htail]
    have hpair := readPair_entry (t := t) entry
      (',' :: ' ' :: (entryText t next ++ (entriesTail t entries ++ ' ' :: '}' :: rest)))
      (by simp)
    have hentries := ih next fuel (by simpa using hfuel)
    have hskip : readPairs fuel
          (' ' :: (entryText t next ++ (entriesTail t entries ++ ' ' :: '}' :: rest))) =
        readPairs fuel
          (entryText t next ++ (entriesTail t entries ++ ' ' :: '}' :: rest)) := by
      cases fuel <;> rfl
    rw [← hskip] at hentries
    refine Reads.congr (hpair.bind ?_) forall_mem_cons.symm
    exact hentries.bind_ok rfl

theorem readInteger_toDigits :
    readInteger (Nat.toDigits 10 n) = .ok (.integer n, []) := by
  have hdigits : ∀ c ∈ Nat.toDigits 10 n, c.isDigit = true :=
    fun c hc => Nat.isDigit_of_mem_toDigits (by decide) (by decide) hc
  have htake := @takeWhile_append_of_pos _ Char.isDigit _ [] hdigits
  have hdrop := @dropWhile_append_of_pos _ Char.isDigit _ [] hdigits
  rw [append_nil, takeWhile_nil, append_nil] at htake
  rw [append_nil, dropWhile_nil] at hdrop
  simp only [readInteger, htake, hdrop, Nat.ofDigitChars_ten_toDigits, if_pos]

/-- A number starts no other value. -/
theorem readValue_toDigits : readValue (Nat.toDigits 10 n) = .ok (.integer n, []) := by
  rw [← readInteger_toDigits]
  cases heq : Nat.toDigits 10 n with
  | nil => exact absurd heq Nat.toDigits_ne_nil
  | cons c digits =>
    have hc : c.isDigit = true :=
      Nat.isDigit_of_mem_toDigits (b := 10) (n := n) (by decide) (by decide) (by simp [heq])
    unfold readValue
    split
    · next h => exact absurd hc (by rw [(List.cons.inj h).1]; decide)
    · next h => exact absurd hc (by rw [(List.cons.inj h).1]; decide)
    · next h => exact absurd hc (by rw [(List.cons.inj h).1]; decide)
    · next h => exact absurd hc (by rw [(List.cons.inj h).1]; decide)
    · next h => exact absurd hc (by rw [(List.cons.inj h).1]; decide)
    · rfl

theorem length_itemsTail_le (items : List Text) : items.length ≤ (itemsTail t items).length := by
  induction items with
  | nil => simp
  | cons item items ih =>
    simp only [itemsTail, map_cons, flatMap_cons, length_append,
      length_cons] at ih ⊢
    have hsep : ", ".toList.length = 2 := rfl
    omega

theorem length_entriesTail_le (entries : List (Text × Text)) :
    entries.length ≤ (entriesTail t entries).length := by
  induction entries with
  | nil => simp
  | cons entry entries ih =>
    simp only [entriesTail, map_cons, flatMap_cons, length_append,
      length_cons] at ih ⊢
    have hsep : ", ".toList.length = 2 := rfl
    omega

/-- A value in its own text, alone on the rest of its line. -/
theorem readValue_text (hformed : value.Formed) :
    Reads (value.Readable t) (value, []) (readValue (value.text t)) := by
  cases value with
  | string s =>
    have hstring := readString_debug (t := t) s [] (by simp)
    refine Reads.congr (hstring.bind_ok ?_) Iff.rfl
    rfl
  | integer n =>
    rw [Value.text, readValue_toDigits]
    exact Reads.ok _
  | boolean b => cases b <;> exact Reads.ok _
  | strings items =>
    cases items with
    | nil => exact (Reads.ok _).congr (by simp [Value.Readable])
    | cons item items =>
      rw [Value.text, map_cons, intercalate_cons, append_assoc]
      have hitems := readItems_debug (t := t) items item []
        (debug t item ++ (itemsTail t items ++ [']'])).length (by
          have hle := length_itemsTail_le (t := t) items
          simp only [length_append, length_cons]
          omega)
      refine Reads.congr (hitems.bind_ok ?_) Iff.rfl
      rfl
  | table entries =>
    obtain ⟨hne, hnodup⟩ := hformed
    cases entries with
    | nil => exact absurd rfl hne
    | cons entry entries =>
      rw [Value.text, map_cons, intercalate_cons, append_assoc]
      have hentries := readPairs_entries (t := t) entries entry []
        (' ' :: (entryText t entry ++ (entriesTail t entries ++ [' ', '}']))).length (by
          have hle := length_entriesTail_le (t := t) entries
          simp only [length_append, length_cons]
          omega)
      refine Reads.congr (hentries.bind_ok ?_) Iff.rfl
      exact if_pos hnodup

end Values

section Documents

open EscapeDebug

variable {t : CharTable}

/-- `key = value` on a line. -/
def rowText (t : CharTable) (row : Text × Value) : Text :=
  row.1 ++ " = ".toList ++ row.2.text t

/-- A key that is written bare, and a value that has a text. -/
def RowFormed (row : Text × Value) : Prop :=
  row.1 ≠ [] ∧ (∀ c ∈ row.1, isBare c = true) ∧ row.2.Formed

/-- The table that the next row goes to. -/
def Document.current : Document → Table
  | ⟨root, []⟩ => root
  | ⟨_, (_, table) :: _⟩ => table

def Document.extend (doc : Document) (rows : Table) : Document :=
  match doc with
  | ⟨root, []⟩ => ⟨root ++ rows, []⟩
  | ⟨root, (name, table) :: arrays⟩ => ⟨root, (name, table ++ rows) :: arrays⟩

variable (doc : Document)

theorem Document.extend_nil : doc.extend [] = doc := by
  obtain ⟨root, _ | ⟨⟨name, table⟩, arrays⟩⟩ := doc <;> simp [extend]

theorem Document.extend_extend (rows rows' : Table) :
    (doc.extend rows).extend rows' = doc.extend (rows ++ rows') := by
  obtain ⟨root, _ | ⟨⟨name, table⟩, arrays⟩⟩ := doc <;> simp [extend]

theorem Document.current_extend (rows : Table) :
    (doc.extend rows).current = doc.current ++ rows := by
  obtain ⟨root, _ | ⟨⟨name, table⟩, arrays⟩⟩ := doc <;> rfl

theorem Document.add_eq (key : Text) (value : Value)
    (hfresh : key ∉ keys doc.current) : doc.add key value = .ok (doc.extend [(key, value)]) := by
  obtain ⟨root, _ | ⟨⟨name, table⟩, arrays⟩⟩ := doc <;> exact if_neg hfresh

theorem takeWhile_isBare (key rest : Text) (hkey : ∀ c ∈ key, isBare c = true)
    (hrest : ∀ c ∈ rest.head?, isBare c = false) :
    (key ++ rest).takeWhile isBare = key ∧ (key ++ rest).dropWhile isBare = rest := by
  rw [takeWhile_append_of_pos hkey, dropWhile_append_of_pos hkey]
  cases rest with
  | nil => simp
  | cons c rest =>
    have hc : isBare c = false := hrest c rfl
    simp [hc]

theorem readLine_bare {key rest : Text} (hne : key ≠ []) (hkey : ∀ c ∈ key, isBare c = true) :
    readLine doc (key ++ rest) = readRow doc (key ++ rest) := by
  cases key with
  | nil => exact absurd rfl hne
  | cons c key =>
    have hc : isBare c = true := hkey c (by simp)
    rw [cons_append]
    unfold readLine
    split
    · next h => cases h
    · next h => exact absurd hc (by rw [(List.cons.inj h).1]; decide)
    · next h => exact absurd hc (by rw [(List.cons.inj h).1]; decide)
    · rfl

/-- What a value's text starts with is not skipped. -/
theorem skip_text : skip (value.text t) = value.text t := by
  cases value with
  | string s => rfl
  | integer n =>
    rw [Value.text]
    cases heq : Nat.toDigits 10 n with
    | nil => rfl
    | cons c digits =>
      have hc : c.isDigit = true :=
        Nat.isDigit_of_mem_toDigits (b := 10) (n := n) (by decide) (by decide) (by simp [heq])
      apply dropWhile_cons_of_neg
      simp only [decide_eq_true_eq, not_or]
      constructor
      · rintro rfl
        exact absurd hc (by decide)
      · rintro rfl
        exact absurd hc (by decide)
  | boolean b => cases b <;> rfl
  | strings items => rfl
  | table entries => rfl

/-- One row, of a key the table does not have. -/
theorem readLine_row (row : Text × Value) (hformed : RowFormed row)
    (hfresh : row.1 ∉ keys doc.current) :
    Reads (row.2.Readable t) (doc.extend [row]) (readLine doc (rowText t row)) := by
  obtain ⟨key, value⟩ := row
  obtain ⟨hne, hkey, hvalue⟩ := hformed
  rw [rowText, append_assoc, readLine_bare doc hne hkey]
  obtain ⟨htake, hdrop⟩ := takeWhile_isBare key (" = ".toList ++ value.text t) hkey (by
    intro c hc
    obtain rfl : ' ' = c := by simpa using hc
    rfl)
  unfold readRow
  rw [htake, hdrop, if_neg hne]
  change Reads _ _ (readValue (skip (value.text t)) >>= _)
  rw [skip_text]
  refine Reads.bind_ok (readValue_text value hvalue) ?_
  exact doc.add_eq key value hfresh

theorem readLines_cons (line : Text) (lines : List Text) :
    readLines doc (line :: lines) = readLine doc line >>= fun doc => readLines doc lines :=
  foldlM_cons

theorem readLines_append (lines lines' : List Text) :
    readLines doc (lines ++ lines') = readLines doc lines >>= fun doc => readLines doc lines' :=
  foldlM_append

theorem readLines_rows (rows : Table) (hformed : ∀ row ∈ rows, RowFormed row)
    (hnodup : (keys (doc.current ++ rows)).Nodup) :
    Reads (∀ row ∈ rows, row.2.Readable t) (doc.extend rows)
      (readLines doc (rows.map (rowText t))) := by
  induction rows generalizing doc with
  | nil =>
    rw [Document.extend_nil]
    exact (Reads.ok doc).congr (by simp)
  | cons row rows ih =>
    have hfresh : row.1 ∉ keys doc.current := by
      rw [keys, map_append, map_cons] at hnodup
      intro hmem
      exact (disjoint_of_nodup_append hnodup) hmem (by simp)
    have hrow := readLine_row (t := t) doc row (hformed row (by simp)) hfresh
    have hrows := ih (doc.extend [row]) (fun row' h => hformed row' (by simp [h])) (by
      rw [Document.current_extend, append_assoc]
      exact hnodup)
    rw [map_cons, readLines_cons]
    rw [Document.extend_extend] at hrows
    exact Reads.congr (hrow.bind hrows) (by simp)

/-- A `[[name]]` header and its rows, after a blank line. -/
def blockLines (t : CharTable) (block : Text × Table) : List Text :=
  [] :: ('[' :: '[' :: (block.1 ++ [']', ']'])) :: block.2.map (rowText t)

/-- A bare name, and rows of different keys. -/
def BlockFormed (block : Text × Table) : Prop :=
  block.1 ≠ [] ∧ (∀ c ∈ block.1, isBare c = true) ∧ (∀ row ∈ block.2, RowFormed row) ∧
    (keys block.2).Nodup

theorem readLine_header {name : Text} (hne : name ≠ [])
    (hname : ∀ c ∈ name, isBare c = true) (hfresh : name ∉ keys doc.root) :
    readLine doc ('[' :: '[' :: (name ++ [']', ']'])) =
      .ok ⟨doc.root, (name, []) :: doc.arrays⟩ := by
  obtain ⟨htake, hdrop⟩ := takeWhile_isBare name [']', ']'] hname (by
    intro c hc
    obtain rfl : ']' = c := by simpa using hc
    rfl)
  change readHeader doc (name ++ [']', ']']) = _
  unfold readHeader
  rw [htake, hdrop, if_neg (by simp [hne]), if_neg hfresh]

theorem readLines_block (block : Text × Table) (hformed : BlockFormed block)
    (hfresh : block.1 ∉ keys doc.root) :
    Reads (∀ row ∈ block.2, row.2.Readable t) ⟨doc.root, block :: doc.arrays⟩
      (readLines doc (blockLines t block)) := by
  obtain ⟨hne, hname, hrows, hnodup⟩ := hformed
  have hheader := readLine_header doc hne hname hfresh
  have hread := readLines_rows (t := t) ⟨doc.root, (block.1, []) :: doc.arrays⟩ block.2 hrows hnodup
  rw [blockLines, readLines_cons, readLine]
  change Reads _ _ (readLines doc (_ :: _))
  rw [readLines_cons, hheader]
  exact hread

theorem readLines_blocks (blocks : List (Text × Table))
    (hformed : ∀ block ∈ blocks, BlockFormed block)
    (hfresh : ∀ block ∈ blocks, block.1 ∉ keys doc.root) :
    Reads (∀ block ∈ blocks, ∀ row ∈ block.2, row.2.Readable t)
      ⟨doc.root, blocks.reverse ++ doc.arrays⟩
      (readLines doc (blocks.flatMap (blockLines t))) := by
  induction blocks generalizing doc with
  | nil => exact (Reads.ok doc).congr (by simp)
  | cons block blocks ih =>
    have hblock := readLines_block (t := t) doc block (hformed block (by simp))
      (hfresh block (by simp))
    have hblocks := ih ⟨doc.root, block :: doc.arrays⟩ (fun b h => hformed b (by simp [h]))
      (fun b h => hfresh b (by simp [h]))
    rw [flatMap_cons, readLines_append]
    rw [reverse_cons, append_assoc]
    exact Reads.congr (hblock.bind hblocks) (by simp)

/-- The lines of a document: a comment, the rows of the root and the blocks. -/
def documentLines (t : CharTable) (comment : Text) (root : Table) (blocks : List (Text × Table)) :
    List Text :=
  ('#' :: comment) :: (root.map (rowText t) ++ blocks.flatMap (blockLines t))

variable (comment : Text)

theorem readLines_document (root : Table) (blocks : List (Text × Table))
    (hcomment : comment.any isControl = false) (hroot : ∀ row ∈ root, RowFormed row)
    (hnodup : (keys root).Nodup) (hformed : ∀ block ∈ blocks, BlockFormed block)
    (hfresh : ∀ block ∈ blocks, block.1 ∉ keys root) :
    Reads ((∀ row ∈ root, row.2.Readable t) ∧ ∀ block ∈ blocks, ∀ row ∈ block.2, row.2.Readable t)
      ⟨root, blocks.reverse⟩
      (readLines ⟨[], []⟩ (documentLines t comment root blocks)) := by
  have hrows := readLines_rows (t := t) ⟨[], []⟩ root hroot hnodup
  have hblocks := readLines_blocks (t := t) ⟨root, []⟩ blocks hformed hfresh
  rw [append_nil] at hblocks
  rw [documentLines, readLines_cons, readLine, if_neg (by simp [hcomment])]
  change Reads _ _ (readLines ⟨[], []⟩ (_ ++ _))
  rw [readLines_append]
  exact hrows.bind hblocks

/-- Lines that keep to themselves are found again, with nothing after the last. -/
theorem splitOn_lines (lines : List Text) (h : ∀ line ∈ lines, '\n' ∉ line) :
    (lines.flatMap (· ++ ['\n'])).splitOn '\n' = lines ++ [[]] := by
  induction lines with
  | nil => rfl
  | cons line lines ih =>
    rw [flatMap_cons, append_assoc, singleton_append,
      splitOn_append_cons_self_of_not_mem (h line (by simp)),
      ih fun l hl => h l (by simp [hl])]
    rfl

theorem newline_not_mem_text : '\n' ∉ value.text t := by
  have hitems {l : List Text} (hl : ∀ s ∈ l, '\n' ∉ s) : '\n' ∉ ", ".toList.intercalate l := by
    cases l with
    | nil => simp [List.intercalate]
    | cons a l =>
      rw [intercalate_cons]
      simp only [mem_append, mem_flatMap, not_or, not_exists, not_and]
      exact ⟨hl a (by simp), fun s hs => ⟨by decide, hl s (by simp [hs])⟩⟩
  cases value with
  | string s => exact newline_not_mem_debug s
  | integer n =>
    intro hmem
    exact absurd (Nat.isDigit_of_mem_toDigits (by decide) (by decide) hmem) (by decide)
  | boolean b => cases b <;> simp [Value.text]
  | strings items =>
    have hnot := hitems (l := items.map (debug t)) (by
      simp only [mem_map]
      rintro _ ⟨s, _, rfl⟩
      exact newline_not_mem_debug s)
    simpa [Value.text] using hnot
  | table entries =>
    have hnot := hitems (l := entries.map (entryText t)) (by
      simp only [mem_map]
      rintro _ ⟨entry, _, rfl⟩
      simp [entryText, newline_not_mem_debug])
    simpa [Value.text] using hnot

theorem newline_not_mem_bare {key : Text} (h : ∀ c ∈ key, isBare c = true) : '\n' ∉ key :=
  fun hmem => absurd (h _ hmem) (by decide)

theorem newline_not_mem_rowText {row : Text × Value} (h : RowFormed row) :
    '\n' ∉ rowText t row := by
  simp [rowText, newline_not_mem_bare h.2.1, newline_not_mem_text]

theorem newline_not_mem_document {comment : Text} {root : Table} {blocks : List (Text × Table)}
    (hcomment : comment.any isControl = false) (hroot : ∀ row ∈ root, RowFormed row)
    (hformed : ∀ block ∈ blocks, BlockFormed block) :
    ∀ line ∈ documentLines t comment root blocks, '\n' ∉ line := by
  intro line hline
  simp only [documentLines, mem_cons, mem_append, mem_map, mem_flatMap,
    blockLines] at hline
  rcases hline with rfl | ⟨row, hrow, rfl⟩ | ⟨block, hblock, rfl | rfl | ⟨row, hrow, rfl⟩⟩
  · intro hmem
    rcases mem_cons.mp hmem with h | h
    · cases h
    · rw [any_eq_false] at hcomment
      exact hcomment _ h (by decide)
  · exact newline_not_mem_rowText (hroot row hrow)
  · simp
  · simp [newline_not_mem_bare (hformed block hblock).2.1]
  · exact newline_not_mem_rowText ((hformed block hblock).2.2.1 row hrow)

/-- The reading of a document's text. -/
theorem read_document (root : Table) (blocks : List (Text × Table))
    (hcomment : comment.any isControl = false) (hroot : ∀ row ∈ root, RowFormed row)
    (hnodup : (keys root).Nodup) (hformed : ∀ block ∈ blocks, BlockFormed block)
    (hfresh : ∀ block ∈ blocks, block.1 ∉ keys root) :
    Reads ((∀ row ∈ root, row.2.Readable t) ∧ ∀ block ∈ blocks, ∀ row ∈ block.2, row.2.Readable t)
      ⟨root, blocks.reverse⟩
      (read ((documentLines t comment root blocks).flatMap (· ++ ['\n']))) := by
  rw [read, splitOn_lines _ (newline_not_mem_document hcomment hroot hformed), readLines_append]
  refine Reads.bind_ok (readLines_document comment root blocks hcomment hroot hnodup hformed hfresh)
    ?_
  rfl

end Documents

end Toml
