/-
Positions of an editor, lines and code units of a negotiated encoding, against the compiler's
lines and codepoint columns.
-/
import Mathlib.Data.List.Basic
import Mathlib.Data.UInt
import Mathlib.Tactic.Ring

namespace Wado.Lsp

open List

inductive PositionEncoding
  | utf8
  | utf16
  | utf32
deriving DecidableEq, Repr

structure Position where
  line : UInt32
  character : UInt32
deriving DecidableEq, Repr

structure Range where
  start : Position
  stop : Position
deriving DecidableEq, Repr

/-- The lines of a source, each with the newline it ends with. -/
def splitInclusive : List Char → List (List Char)
  | [] => []
  | c :: rest =>
    if c = '\n' then [c] :: splitInclusive rest
    else
      match splitInclusive rest with
      | [] => [[c]]
      | line :: lines => (c :: line) :: lines

def stripSuffix (line : List Char) (c : Char) : Option (List Char) :=
  if line.getLast? = some c then some line.dropLast else none

def lineWithoutTerminator (line : List Char) : List Char :=
  ((stripSuffix line '\n').map fun s => (stripSuffix s '\r').getD s).getD line

def lenUtf16 (ch : Char) : Nat :=
  if ch.toNat ≤ 0xFFFF then 1 else 2

def codeUnitsOf (ch : Char) : PositionEncoding → Nat
  | .utf8 => ch.utf8Size
  | .utf16 => lenUtf16 ch
  | .utf32 => 1

/-- The loop over the characters from index `i` on, with `units` before them. -/
def codepointLoop (target : Nat) (encoding : PositionEncoding) : Nat → Nat → List Char → Nat
  | i, _, [] => i
  | i, units, ch :: rest =>
    if units ≥ target then i
    else codepointLoop target encoding (i + 1) (units + codeUnitsOf ch encoding) rest

def characterToCodepointOffset (line : List Char) (character : UInt32)
    (encoding : PositionEncoding) : Nat :=
  let target := character.toNat
  if encoding = .utf32 then min target line.length
  else codepointLoop target encoding 0 0 line

def usizeMax : Nat := 2 ^ 64 - 1

def lspPositionToLineCol (source : List Char) (position : Position) (encoding : PositionEncoding) :
    Nat × Nat :=
  match (splitInclusive source).zipIdx.find? fun entry => entry.2.toUInt32 = position.line with
  | some (line, currentLine) =>
    let lineContent := lineWithoutTerminator line
    let codepointCol := characterToCodepointOffset lineContent position.character encoding
    (currentLine.toUInt32.toNat + 1, codepointCol + 1)
  | none => (usizeMax, 1)

/-- The sum of 32-bit code units wraps, as it does without overflow checks. -/
def codepointsToCodeUnits (line : List Char) (lineCodepoints codepointCol : UInt32)
    (encoding : PositionEncoding) : UInt32 :=
  let codepointCol := min codepointCol lineCodepoints
  if encoding = .utf32 then codepointCol
  else ((line.take codepointCol.toNat).map fun c => (codeUnitsOf c encoding).toUInt32).sum

/-- Lines without their terminators, each with its number of codepoints. -/
structure LineIndex where
  lines : List (List Char × UInt32)

def LineIndex.new (source : List Char) : LineIndex :=
  ⟨(splitInclusive source).map fun line =>
    let text := lineWithoutTerminator line
    (text, text.length.toUInt32)⟩

def LineIndex.toCharacter (index : LineIndex) (line codepointCol : UInt32)
    (encoding : PositionEncoding) : UInt32 :=
  match index.lines[line.toNat]? with
  | none => codepointCol
  | some (text, codepoints) => codepointsToCodeUnits text codepoints codepointCol encoding

def rangeFromCodepoints (start stop : Nat × Nat) (lines : Option LineIndex)
    (encoding : PositionEncoding) : Range :=
  let position := fun (at' : Nat × Nat) =>
    let line := (at'.1 - 1).toUInt32
    let codepointCol := (at'.2 - 1).toUInt32
    ({ line
       character := match lines with
        | some lines => lines.toCharacter line codepointCol encoding
        | none => codepointCol } : Position)
  ⟨position start, position stop⟩

/-- The lexer's step over a character, on its line and its column. -/
def advance (at' : Nat × Nat) (ch : Char) : Nat × Nat :=
  if ch = '\n' then (at'.1 + 1, 1) else (at'.1, at'.2 + 1)

/-- The compiler's line and column at a character offset. -/
def lineCol (source : List Char) (n : Nat) : Nat × Nat :=
  (source.take n).foldl advance (1, 1)

/-- The offset is between the two characters of a terminator. -/
def InTerminator (source : List Char) (n : Nat) : Prop :=
  (source.take n).getLast? = some '\r' ∧ (source.drop n).head? = some '\n'

/-- The offset is on the empty line at the end of an empty or a newline-terminated source. -/
def OnFinalEmptyLine (source : List Char) (n : Nat) : Prop :=
  n = source.length ∧ (source = [] ∨ source.getLast? = some '\n')

/-- Lines and code units are numbered within 32 bits. -/
structure Addressable (source : List Char) : Prop where
  lines : (splitInclusive source).length < 2 ^ 32
  units : ∀ line ∈ splitInclusive source, (line.map Char.utf8Size).sum < 2 ^ 32

section Lines

variable {body rest : List Char}

theorem splitInclusive_body (hbody : '\n' ∉ body) (hne : body ≠ []) :
    splitInclusive body = [body] := by
  induction body with
  | nil => exact absurd rfl hne
  | cons c body ih =>
    obtain ⟨hc, hbody⟩ := not_or.mp (mt mem_cons.mpr hbody)
    rw [splitInclusive, if_neg (Ne.symm hc)]
    cases body with
    | nil => rfl
    | cons c' body => rw [ih hbody (by simp)]

theorem splitInclusive_line (hbody : '\n' ∉ body) :
    splitInclusive (body ++ '\n' :: rest) = (body ++ ['\n']) :: splitInclusive rest := by
  induction body with
  | nil => rw [nil_append, splitInclusive, if_pos rfl, nil_append]
  | cons c body ih =>
    obtain ⟨hc, hbody⟩ := not_or.mp (mt mem_cons.mpr hbody)
    rw [cons_append, splitInclusive, if_neg (Ne.symm hc), ih hbody]
    rfl

/-- Induction over the lines of a source. -/
theorem lines_induction {motive : List Char → Prop} (nil : motive [])
    (last : ∀ body, '\n' ∉ body → body ≠ [] → motive body)
    (line : ∀ body rest, '\n' ∉ body → motive rest → motive (body ++ '\n' :: rest))
    (source : List Char) : motive source := by
  by_cases hmem : '\n' ∈ source
  · obtain ⟨body, rest, hsource, hbody⟩ := eq_append_cons_of_mem hmem
    rw [hsource]
    exact line body rest hbody (lines_induction nil last line rest)
  · by_cases hne : source = []
    · rw [hne]
      exact nil
    · exact last source hmem hne
termination_by source.length
decreasing_by
  rw [hsource, List.length_append, List.length_cons]
  omega

theorem getLast?_ne_of_not_mem {c : Char} {chars : List Char} (h : c ∉ chars) :
    chars.getLast? ≠ some c :=
  fun hlast => h (mem_of_getLast? hlast)

theorem lineWithoutTerminator_body (hbody : '\n' ∉ body) : lineWithoutTerminator body = body := by
  rw [lineWithoutTerminator, stripSuffix, if_neg (getLast?_ne_of_not_mem hbody)]
  rfl

theorem lineWithoutTerminator_line : lineWithoutTerminator (body ++ ['\n']) =
      if body.getLast? = some '\r' then body.dropLast else body := by
  rw [lineWithoutTerminator, stripSuffix, if_pos (by simp), dropLast_concat, Option.map_some,
    Option.getD_some, stripSuffix]
  split_ifs <;> rfl

theorem lineWithoutTerminator_prefix (line : List Char) :
    ∃ k, lineWithoutTerminator line = line.take k := by
  unfold lineWithoutTerminator stripSuffix
  split_ifs with hnewline
  · rw [Option.map_some, Option.getD_some]
    split_ifs with hreturn
    · rw [Option.getD_some, dropLast_eq_take, dropLast_eq_take, take_take]
      exact ⟨_, rfl⟩
    · rw [Option.getD_none, dropLast_eq_take]
      exact ⟨_, rfl⟩
  · exact ⟨line.length, by simp⟩

theorem foldl_advance_body (hbody : '\n' ∉ body) (line column : Nat) :
    body.foldl advance (line, column) = (line, column + body.length) := by
  induction body generalizing column with
  | nil => rfl
  | cons c body ih =>
    obtain ⟨hc, hbody⟩ := not_or.mp (mt mem_cons.mpr hbody)
    rw [foldl_cons, advance, if_neg (Ne.symm hc), ih hbody, length_cons, Prod.mk.injEq]
    omega

theorem foldl_advance_shift (chars : List Char) (line column : Nat) :
    chars.foldl advance (line + 1, column) =
      ((chars.foldl advance (line, column)).1 + 1, (chars.foldl advance (line, column)).2) := by
  induction chars generalizing line column with
  | nil => rfl
  | cons c chars ih =>
    rw [foldl_cons, foldl_cons]
    unfold advance
    split_ifs <;> exact ih _ _

theorem lineCol_line (hbody : '\n' ∉ body) (n : Nat) :
    lineCol (body ++ '\n' :: rest) (body.length + 1 + n) =
      ((lineCol rest n).1 + 1, (lineCol rest n).2) := by
  rw [lineCol, take_append, take_of_length_le (by omega),
    show body.length + 1 + n - body.length = n + 1 by omega, take_succ_cons, foldl_append,
    foldl_advance_body hbody, foldl_cons, advance, if_pos rfl]
  exact foldl_advance_shift _ _ _

/-- An offset that is in no terminator is on the content of a line, just past it, or on the empty
line at the end. -/
theorem lineCol_cases (source : List Char) : ∀ n ≤ source.length, ¬ InTerminator source n →
    (¬ OnFinalEmptyLine source n ∧ ∃ i line j, (splitInclusive source)[i]? = some line ∧
      j ≤ (lineWithoutTerminator line).length ∧ lineCol source n = (i + 1, j + 1)) ∨
    (OnFinalEmptyLine source n ∧ lineCol source n = ((splitInclusive source).length + 1, 1)) := by
  induction source using lines_induction with
  | nil =>
    intro n hn _
    rw [Nat.le_zero.mp hn]
    exact .inr ⟨⟨rfl, .inl rfl⟩, rfl⟩
  | last body hbody hne =>
    intro n hn _
    refine .inl ⟨fun h => h.2.elim hne (getLast?_ne_of_not_mem hbody), 0, body, n, ?_, ?_, ?_⟩
    · rw [splitInclusive_body hbody hne]
      rfl
    · rwa [lineWithoutTerminator_body hbody]
    · rw [lineCol, foldl_advance_body (fun h => hbody (mem_of_mem_take h)),
        length_take_of_le hn, Nat.add_comm]
  | line body rest hbody ih =>
    intro n hn hterminator
    rw [length_append, length_cons] at hn
    rw [splitInclusive_line hbody]
    by_cases hfirst : n ≤ body.length
    · have htake : (body ++ '\n' :: rest).take n = body.take n :=
        take_append_of_le_length hfirst
      refine .inl ⟨fun h => ?_, 0, _, n, rfl, ?_, ?_⟩
      · have := h.1
        rw [length_append, length_cons] at this
        omega
      · rw [lineWithoutTerminator_line]
        split_ifs with hreturn
        · rw [length_dropLast]
          by_contra hlast
          have hlength : n = body.length := by omega
          refine hterminator ⟨?_, ?_⟩
          · rw [htake, hlength, take_length, hreturn]
          · rw [hlength, drop_left, List.head?_cons]
        · exact hfirst
      · rw [lineCol, htake, foldl_advance_body (fun h => hbody (mem_of_mem_take h)),
          length_take_of_le hfirst, Nat.add_comm]
    · obtain ⟨m, rfl⟩ : ∃ m, n = body.length + 1 + m := ⟨n - (body.length + 1), by omega⟩
      have hempty : OnFinalEmptyLine (body ++ '\n' :: rest) (body.length + 1 + m) ↔
          OnFinalEmptyLine rest m := by
        unfold OnFinalEmptyLine
        rw [length_append, length_cons]
        refine and_congr (by omega) ?_
        cases rest <;> simp
      have hin : InTerminator rest m →
          InTerminator (body ++ '\n' :: rest) (body.length + 1 + m) := by
        rintro ⟨hlast, hhead⟩
        refine ⟨?_, ?_⟩
        · rw [take_append, show body.length + 1 + m - body.length = m + 1 by omega,
            take_succ_cons, List.getLast?_append, List.getLast?_cons, hlast]
          rfl
        · rw [drop_append, drop_of_length_le (by omega),
            show body.length + 1 + m - body.length = m + 1 by omega]
          exact hhead
      rw [hempty, lineCol_line hbody]
      obtain ⟨hnot, i, line, j, hline, hj, hat⟩ | ⟨hend, hat⟩ :=
        ih m (by omega) (mt hin hterminator)
      · exact .inl ⟨hnot, i + 1, line, j, by simpa using hline, hj, by rw [hat]⟩
      · exact .inr ⟨hend, by rw [hat, length_cons]⟩

end Lines

section Units

variable {encoding : PositionEncoding} {i units : Nat} {chars : List Char}

/-- The code units of characters. -/
def unitsOf (encoding : PositionEncoding) (chars : List Char) : Nat :=
  (chars.map fun c => codeUnitsOf c encoding).sum

theorem codeUnitsOf_pos (c : Char) : 0 < codeUnitsOf c encoding := by
  cases encoding with
  | utf8 => exact c.utf8Size_pos
  | utf16 =>
    unfold codeUnitsOf lenUtf16
    dsimp only
    split_ifs <;> omega
  | utf32 => exact Nat.one_pos

/-- No encoding needs more units for a character than it has bytes. -/
theorem codeUnitsOf_le (c : Char) : codeUnitsOf c encoding ≤ c.utf8Size := by
  cases encoding with
  | utf8 => exact le_rfl
  | utf16 =>
    have hpos := c.utf8Size_pos
    unfold codeUnitsOf lenUtf16
    dsimp only
    split_ifs with hplane
    · exact hpos
    · unfold Char.utf8Size
      simp only [UInt32.le_iff_toNat_le]
      unfold Char.toNat at hplane
      split_ifs with hascii
      · exact absurd (Nat.le_trans hascii (by decide)) hplane
      all_goals omega
  | utf32 => exact c.utf8Size_pos

@[simp] theorem unitsOf_nil : unitsOf encoding [] = 0 := rfl

@[simp] theorem unitsOf_cons (c : Char) (chars : List Char) :
    unitsOf encoding (c :: chars) = codeUnitsOf c encoding + unitsOf encoding chars := rfl

theorem unitsOf_le (chars : List Char) :
    unitsOf encoding chars ≤ (chars.map Char.utf8Size).sum := by
  induction chars with
  | nil => exact le_rfl
  | cons c chars ih => exact Nat.add_le_add (codeUnitsOf_le c) ih

theorem length_le_unitsOf (chars : List Char) : chars.length ≤ unitsOf encoding chars := by
  induction chars with
  | nil => exact le_rfl
  | cons c chars ih =>
    have := @codeUnitsOf_pos encoding c
    rw [length_cons, unitsOf_cons]
    omega

theorem unitsOf_take_le (n : Nat) (chars : List Char) :
    unitsOf encoding (chars.take n) ≤ unitsOf encoding chars := by
  induction chars generalizing n with
  | nil => simp
  | cons c chars ih =>
    cases n with
    | zero => exact Nat.zero_le _
    | succ n => exact Nat.add_le_add_left (ih n) _

theorem codepointLoop_bounds (target : Nat) : i ≤ codepointLoop target encoding i units chars ∧
      codepointLoop target encoding i units chars ≤ i + chars.length := by
  induction chars generalizing i units with
  | nil => exact ⟨le_rfl, le_rfl⟩
  | cons c chars ih =>
    rw [codepointLoop, length_cons]
    split_ifs
    · omega
    · have := @ih (i + 1) (units + codeUnitsOf c encoding)
      omega

theorem codepointLoop_mono {target target' : Nat} (h : target ≤ target') :
    codepointLoop target encoding i units chars ≤ codepointLoop target' encoding i units chars := by
  induction chars generalizing i units with
  | nil => exact le_rfl
  | cons c chars ih =>
    by_cases hreached : units ≥ target
    · rw [codepointLoop, if_pos hreached]
      exact (codepointLoop_bounds target').1
    · rw [codepointLoop, if_neg hreached, codepointLoop, if_neg (by omega)]
      exact ih

/-- The loop stops at the character whose units before it are the target. -/
theorem codepointLoop_unitsOf {j : Nat} (hj : j ≤ chars.length) :
    codepointLoop (units + unitsOf encoding (chars.take j)) encoding i units chars = i + j := by
  induction chars generalizing i j units with
  | nil =>
    rw [Nat.le_zero.mp hj]
    rfl
  | cons c chars ih =>
    cases j with
    | zero => rw [codepointLoop, if_pos (by simp), Nat.add_zero]
    | succ j =>
      have hpos := @codeUnitsOf_pos encoding c
      rw [take_succ_cons, unitsOf_cons, ← Nat.add_assoc, codepointLoop, if_neg (by omega),
        ih (Nat.le_of_succ_le_succ hj), Nat.add_right_comm, Nat.add_assoc]

theorem offset_bounds (line : List Char) (character : UInt32) :
    characterToCodepointOffset line character encoding ≤ line.length := by
  unfold characterToCodepointOffset
  dsimp only
  split_ifs
  · exact Nat.min_le_right _ _
  · have := (@codepointLoop_bounds encoding 0 0 line character.toNat).2
    omega

theorem offset_mono (line : List Char) {character character' : UInt32}
    (h : character ≤ character') :
    characterToCodepointOffset line character encoding ≤
      characterToCodepointOffset line character' encoding := by
  have h := UInt32.le_iff_toNat_le.mp h
  unfold characterToCodepointOffset
  dsimp only
  split_ifs
  · omega
  · exact codepointLoop_mono h

theorem toNat_toUInt32 {n : Nat} (h : n < 2 ^ 32) : n.toUInt32.toNat = n :=
  UInt32.toNat_ofNat_of_lt' h

theorem sum_toUInt32 (sizes : List Nat) : (sizes.map Nat.toUInt32).sum = sizes.sum.toUInt32 := by
  induction sizes with
  | nil => rfl
  | cons n sizes ih =>
    rw [map_cons, sum_cons, ih, sum_cons]
    exact (UInt32.ofNat_add _ _).symm

/-- A codepoint of a line whose units fit in 32 bits is the one at its code units. -/
theorem offset_codeUnits {line : List Char} {j : Nat} (hj : j ≤ line.length)
    (hunits : unitsOf encoding line < 2 ^ 32) :
    characterToCodepointOffset line
      (codepointsToCodeUnits line line.length.toUInt32 j.toUInt32 encoding) encoding = j := by
  have hlength := @length_le_unitsOf encoding line
  have hcolumn : j.toUInt32.toNat = j := toNat_toUInt32 (by omega)
  have hmin : min j.toUInt32 line.length.toUInt32 = j.toUInt32 := by
    refine if_pos (UInt32.le_iff_toNat_le.mpr ?_)
    rwa [hcolumn, toNat_toUInt32 (by omega)]
  unfold characterToCodepointOffset codepointsToCodeUnits
  dsimp only
  rw [hmin]
  by_cases hutf32 : encoding = .utf32
  · rw [if_pos hutf32, if_pos hutf32, hcolumn]
    exact Nat.min_eq_left hj
  · have hsum : ((line.take j).map fun c => (codeUnitsOf c encoding).toUInt32).sum =
        (unitsOf encoding (line.take j)).toUInt32 := by
      rw [unitsOf, ← sum_toUInt32, map_map]
      rfl
    have htake := @unitsOf_take_le encoding j line
    have hat := @codepointLoop_unitsOf encoding 0 0 line j hj
    rw [if_neg hutf32, if_neg hutf32, hcolumn, hsum, toNat_toUInt32 (by omega)]
    simpa using hat

end Units

section Positions

variable {source : List Char} {encoding : PositionEncoding} {position : Position}

/-- The search by wrapped line numbers is the lookup of the position's line. -/
theorem lspPositionToLineCol_eq : lspPositionToLineCol source position encoding =
      match (splitInclusive source)[position.line.toNat]? with
      | some line => (position.line.toNat + 1, characterToCodepointOffset
          (lineWithoutTerminator line) position.character encoding + 1)
      | none => (usizeMax, 1) := by
  have hbound := position.line.toNat_lt
  have hwrap : ∀ i < 2 ^ 32, i.toUInt32 = position.line → i = position.line.toNat := by
    intro i hi h
    rw [← h]
    exact (toNat_toUInt32 hi).symm
  unfold lspPositionToLineCol
  cases hline : (splitInclusive source)[position.line.toNat]? with
  | none =>
    have hlength := List.getElem?_eq_none_iff.mp hline
    rw [List.find?_eq_none.mpr]
    rintro ⟨line, i⟩ hmem
    have hi := (mem_zipIdx hmem).2.1
    simp only [decide_eq_true_eq]
    intro h
    have := hwrap i (by omega) h
    omega
  | some line =>
    obtain ⟨hlength, hget⟩ := List.getElem?_eq_some_iff.mp hline
    have hfind : ((splitInclusive source).zipIdx.find? fun entry =>
        entry.2.toUInt32 = position.line) = some (line, position.line.toNat) := by
      rw [List.find?_eq_some_iff_getElem]
      refine ⟨by simp, position.line.toNat, by simpa using hlength, by simp [hget], ?_⟩
      intro j hj
      rw [getElem_zipIdx]
      simp only [Bool.not_eq_true', decide_eq_false_iff_not]
      intro h
      have := hwrap (0 + j) (by omega) h
      omega
    rw [hfind]
    simp

/-- The content of a line, empty past the lines. -/
def lineContent (source : List Char) (line : Nat) : List Char :=
  lineWithoutTerminator ((splitInclusive source).getD line [])

theorem lspPositionToLineCol_column : (lspPositionToLineCol source position encoding).2 =
      characterToCodepointOffset (lineContent source position.line.toNat) position.character
        encoding + 1 := by
  rw [lspPositionToLineCol_eq, lineContent, getD_eq_getElem?_getD]
  cases (splitInclusive source)[position.line.toNat]? with
  | none =>
    have := @offset_bounds encoding (lineWithoutTerminator []) position.character
    exact congrArg (· + 1) (Nat.le_zero.mp this).symm
  | some line => rfl

/-- On the content of a line the compiler's position goes to the editor's and back. -/
theorem lspPosition_of_column (haddressable : Addressable source) {i j : Nat} {line : List Char}
    (hline : (splitInclusive source)[i]? = some line)
    (hj : j ≤ (lineWithoutTerminator line).length) :
    lspPositionToLineCol source ⟨i.toUInt32,
      (LineIndex.new source).toCharacter i.toUInt32 j.toUInt32 encoding⟩ encoding =
        (i + 1, j + 1) := by
  obtain ⟨hi, hget⟩ := List.getElem?_eq_some_iff.mp hline
  have hnumber : i.toUInt32.toNat = i := toNat_toUInt32 (Nat.lt_trans hi haddressable.lines)
  have hunits : unitsOf encoding (lineWithoutTerminator line) < 2 ^ 32 := by
    obtain ⟨k, hk⟩ := lineWithoutTerminator_prefix line
    have htake := @unitsOf_take_le encoding k line
    have hbytes := haddressable.units line (mem_of_getElem? hline)
    have hle := @unitsOf_le encoding line
    rw [hk]
    omega
  have hcharacter : (LineIndex.new source).toCharacter i.toUInt32 j.toUInt32 encoding =
      codepointsToCodeUnits (lineWithoutTerminator line)
        (lineWithoutTerminator line).length.toUInt32 j.toUInt32 encoding := by
    unfold LineIndex.toCharacter LineIndex.new
    rw [hnumber, List.getElem?_map, hline]
    rfl
  rw [lspPositionToLineCol_eq]
  dsimp only
  rw [hnumber, hline, hcharacter]
  dsimp only
  rw [offset_codeUnits hj hunits]

/-- The range of two places, read back at its start and at its end. -/
def readBack (source : List Char) (encoding : PositionEncoding) (start stop : Nat × Nat) :
    (Nat × Nat) × (Nat × Nat) :=
  let range := rangeFromCodepoints start stop (some (LineIndex.new source)) encoding
  (lspPositionToLineCol source range.start encoding,
    lspPositionToLineCol source range.stop encoding)

/-- What an offset is read back as: the sentinel on the empty line at the end, else its own
place. -/
def Reads (source : List Char) (n : Nat) (read : Nat × Nat) : Prop :=
  (¬ OnFinalEmptyLine source n ∧ read = lineCol source n) ∨
    (OnFinalEmptyLine source n ∧ read = (usizeMax, 1))

theorem position_reads (haddressable : Addressable source) {n : Nat} (hn : n ≤ source.length)
    (hterminator : ¬ InTerminator source n) :
    Reads source n (lspPositionToLineCol source ⟨((lineCol source n).1 - 1).toUInt32,
      (LineIndex.new source).toCharacter ((lineCol source n).1 - 1).toUInt32
        ((lineCol source n).2 - 1).toUInt32 encoding⟩ encoding) := by
  obtain ⟨hnot, i, line, j, hline, hj, hat⟩ | ⟨hend, hat⟩ := lineCol_cases source n hn hterminator
  · refine .inl ⟨hnot, ?_⟩
    rw [hat]
    exact lspPosition_of_column haddressable hline hj
  · refine .inr ⟨hend, ?_⟩
    rw [hat, lspPositionToLineCol_eq]
    dsimp only
    rw [Nat.add_sub_cancel, toNat_toUInt32 haddressable.lines, List.getElem?_eq_none_iff.mpr le_rfl]

/-- A range's ends are read back as the places they are of, save the empty line at the end, and
every editor's position has a column on its line's content or just past it, in order. -/
theorem positions_round_trip :
    (∀ source, Addressable source → ∀ encoding, ∀ n ≤ source.length, ∀ m ≤ source.length,
      ¬ InTerminator source n → ¬ InTerminator source m →
        Reads source n (readBack source encoding (lineCol source n) (lineCol source m)).1 ∧
        Reads source m (readBack source encoding (lineCol source n) (lineCol source m)).2) ∧
    (∀ source position encoding, 1 ≤ (lspPositionToLineCol source position encoding).2 ∧
        (lspPositionToLineCol source position encoding).2 ≤
          (lineContent source position.line.toNat).length + 1 ∧
        (position.line.toNat < (splitInclusive source).length →
          (lspPositionToLineCol source position encoding).1 = position.line.toNat + 1)) ∧
    (∀ source line character character' encoding, character ≤ character' →
      (lspPositionToLineCol source ⟨line, character⟩ encoding).2 ≤
        (lspPositionToLineCol source ⟨line, character'⟩ encoding).2) := by
  refine ⟨?_, ?_, ?_⟩
  · intro source haddressable encoding n hn m hm hterminator hterminator'
    exact ⟨position_reads haddressable hn hterminator, position_reads haddressable hm hterminator'⟩
  · intro source position encoding
    rw [lspPositionToLineCol_column]
    refine ⟨by omega, Nat.add_le_add_right (offset_bounds _ _) 1, ?_⟩
    intro hline
    rw [lspPositionToLineCol_eq, List.getElem?_eq_getElem hline]
  · intro source line character character' encoding h
    rw [lspPositionToLineCol_column, lspPositionToLineCol_column]
    exact Nat.add_le_add_right (offset_mono _ h) 1

/-- A crab between a carriage return and a newline-terminated end. -/
def crab : List Char := ['a', '\r', Char.ofNat 0x1F980, 'b', '\r', '\n']

theorem positions_round_trip_crab :
    (readBack crab .utf16 (lineCol crab 3) (lineCol crab 6)).1 = (1, 4) ∧
      (readBack crab .utf16 (lineCol crab 3) (lineCol crab 6)).2 = (usizeMax, 1) ∧
      (lspPositionToLineCol crab ⟨0, 3⟩ .utf16).2 ≤
        (lspPositionToLineCol crab ⟨0, 9⟩ .utf16).2 := by
  have haddressable : Addressable crab := ⟨by decide, by decide⟩
  have hinside : ∀ n, ¬ (crab.take n).getLast? = some '\r' → ¬ InTerminator crab n :=
    fun n h hin => h hin.1
  have hreads := positions_round_trip.1 crab haddressable .utf16 3 (by decide) 6 (by decide)
    (hinside 3 (by decide)) (hinside 6 (by decide))
  refine ⟨?_, ?_, positions_round_trip.2.2 crab 0 3 9 .utf16 (by decide)⟩
  · obtain ⟨-, hread⟩ | ⟨⟨hend, -⟩, -⟩ := hreads.1
    · exact hread
    · exact absurd hend (by decide)
  · obtain ⟨hnot, -⟩ | ⟨-, hread⟩ := hreads.2
    · exact absurd ⟨rfl, .inr rfl⟩ hnot
    · exact hread

/-- The empty line at the end, and a line too long to address. -/
theorem positions_not_round_trip : (OnFinalEmptyLine ['a', '\n'] 2 ∧ ¬ InTerminator ['a', '\n'] 2 ∧
      (readBack ['a', '\n'] .utf16 (lineCol ['a', '\n'] 2) (1, 1)).1 ≠ lineCol ['a', '\n'] 2) ∧
    ∃ source n, n ≤ source.length ∧ ¬ InTerminator source n ∧ ¬ OnFinalEmptyLine source n ∧
      (readBack source .utf32 (lineCol source n) (1, 1)).1 ≠ lineCol source n := by
  refine ⟨⟨⟨rfl, .inr rfl⟩, ?_, by decide⟩, ?_⟩
  · intro h
    exact absurd h.1 (by decide)
  -- a line of 2^32 letters, at its end: its column is cut to the first
  obtain ⟨k, hk⟩ : ∃ k : Nat, k = 2 ^ 32 - 1 := ⟨_, rfl⟩
  have hwrap : (k + 1).toUInt32 = 0 := by
    rw [hk]
    rfl
  have hbody : '\n' ∉ List.replicate (k + 1) 'a' := by simp
  have hlast : (List.replicate (k + 1) 'a').getLast? = some 'a' := by
    rw [List.replicate_succ', List.getLast?_concat]
  have hat : lineCol (List.replicate (k + 1) 'a') (k + 1) = (1, 1 + (k + 1)) := by
    rw [lineCol, List.take_of_length_le (by simp), foldl_advance_body hbody, List.length_replicate]
  refine ⟨List.replicate (k + 1) 'a', k + 1, by simp, fun h => ?_, fun h => ?_, ?_⟩
  · rw [InTerminator, List.take_of_length_le (by simp), hlast] at h
    exact absurd h.1 (by decide)
  · rw [OnFinalEmptyLine, hlast] at h
    simp at h
  · have hsplit := splitInclusive_body hbody (by simp)
    have hread : (readBack (List.replicate (k + 1) 'a') .utf32 (1, 1 + (k + 1)) (1, 1)).1 =
        (1, 1) := by
      unfold readBack rangeFromCodepoints LineIndex.toCharacter LineIndex.new
      dsimp only
      rw [lspPositionToLineCol_eq, hsplit]
      simp [hwrap, lineWithoutTerminator_body hbody, characterToCodepointOffset,
        codepointsToCodeUnits]
      rfl
    rw [hat, hread]
    simp

end Positions

end Wado.Lsp
