/-
Base64: three bytes regrouped as four sextets, the alphabets that spell a
sextet, and the two decoders. A text is the list of its bytes; every character
an encoder writes is ASCII.
-/
import Wado.Words
import Mathlib.Tactic.SplitIfs

namespace Wado

namespace Base64

abbrev EncodeTable := Vector Char 64

abbrev DecodeTable := Vector UInt8 256

def standardTable : EncodeTable := ⟨#[
    'A', 'B', 'C', 'D', 'E', 'F', 'G', 'H', 'I', 'J', 'K', 'L', 'M', 'N', 'O', 'P', 'Q', 'R', 'S',
    'T', 'U', 'V', 'W', 'X', 'Y', 'Z', 'a', 'b', 'c', 'd', 'e', 'f', 'g', 'h', 'i', 'j', 'k', 'l',
    'm', 'n', 'o', 'p', 'q', 'r', 's', 't', 'u', 'v', 'w', 'x', 'y', 'z', '0', '1', '2', '3', '4',
    '5', '6', '7', '8', '9', '+', '/'], rfl⟩

def urlSafeTable : EncodeTable := ⟨#[
    'A', 'B', 'C', 'D', 'E', 'F', 'G', 'H', 'I', 'J', 'K', 'L', 'M', 'N', 'O', 'P', 'Q', 'R', 'S',
    'T', 'U', 'V', 'W', 'X', 'Y', 'Z', 'a', 'b', 'c', 'd', 'e', 'f', 'g', 'h', 'i', 'j', 'k', 'l',
    'm', 'n', 'o', 'p', 'q', 'r', 's', 't', 'u', 'v', 'w', 'x', 'y', 'z', '0', '1', '2', '3', '4',
    '5', '6', '7', '8', '9', '-', '_'], rfl⟩

set_option maxRecDepth 4000 in
/-- Both alphabets at once; 254 marks the padding character, 255 every byte
outside the alphabets. -/
def decodeTable : DecodeTable := ⟨#[
    255, 255, 255, 255, 255, 255, 255, 255, 255, 255, 255, 255, 255, 255, 255, 255, 255, 255, 255,
    255, 255, 255, 255, 255, 255, 255, 255, 255, 255, 255, 255, 255, 255, 255, 255, 255, 255, 255,
    255, 255, 255, 255, 255, 62, 255, 62, 255, 63, 52, 53, 54, 55, 56, 57, 58, 59, 60, 61, 255,
    255, 255, 254, 255, 255, 255, 0, 1, 2, 3, 4, 5, 6, 7, 8, 9, 10, 11, 12, 13, 14, 15, 16, 17,
    18, 19, 20, 21, 22, 23, 24, 25, 255, 255, 255, 255, 63, 255, 26, 27, 28, 29, 30, 31, 32, 33,
    34, 35, 36, 37, 38, 39, 40, 41, 42, 43, 44, 45, 46, 47, 48, 49, 50, 51, 255, 255, 255, 255,
    255, 255, 255, 255, 255, 255, 255, 255, 255, 255, 255, 255, 255, 255, 255, 255, 255, 255, 255,
    255, 255, 255, 255, 255, 255, 255, 255, 255, 255, 255, 255, 255, 255, 255, 255, 255, 255, 255,
    255, 255, 255, 255, 255, 255, 255, 255, 255, 255, 255, 255, 255, 255, 255, 255, 255, 255, 255,
    255, 255, 255, 255, 255, 255, 255, 255, 255, 255, 255, 255, 255, 255, 255, 255, 255, 255, 255,
    255, 255, 255, 255, 255, 255, 255, 255, 255, 255, 255, 255, 255, 255, 255, 255, 255, 255, 255,
    255, 255, 255, 255, 255, 255, 255, 255, 255, 255, 255, 255, 255, 255, 255, 255, 255, 255, 255,
    255, 255, 255, 255, 255, 255, 255, 255, 255, 255, 255, 255, 255, 255, 255], by rfl⟩

set_option maxRecDepth 4000 in
/-- The URL-safe alphabet alone. -/
def urlDecodeTable : DecodeTable := ⟨#[
    255, 255, 255, 255, 255, 255, 255, 255, 255, 255, 255, 255, 255, 255, 255, 255, 255, 255, 255,
    255, 255, 255, 255, 255, 255, 255, 255, 255, 255, 255, 255, 255, 255, 255, 255, 255, 255, 255,
    255, 255, 255, 255, 255, 255, 255, 62, 255, 255, 52, 53, 54, 55, 56, 57, 58, 59, 60, 61, 255,
    255, 255, 255, 255, 255, 255, 0, 1, 2, 3, 4, 5, 6, 7, 8, 9, 10, 11, 12, 13, 14, 15, 16, 17,
    18, 19, 20, 21, 22, 23, 24, 25, 255, 255, 255, 255, 63, 255, 26, 27, 28, 29, 30, 31, 32, 33,
    34, 35, 36, 37, 38, 39, 40, 41, 42, 43, 44, 45, 46, 47, 48, 49, 50, 51, 255, 255, 255, 255,
    255, 255, 255, 255, 255, 255, 255, 255, 255, 255, 255, 255, 255, 255, 255, 255, 255, 255, 255,
    255, 255, 255, 255, 255, 255, 255, 255, 255, 255, 255, 255, 255, 255, 255, 255, 255, 255, 255,
    255, 255, 255, 255, 255, 255, 255, 255, 255, 255, 255, 255, 255, 255, 255, 255, 255, 255, 255,
    255, 255, 255, 255, 255, 255, 255, 255, 255, 255, 255, 255, 255, 255, 255, 255, 255, 255, 255,
    255, 255, 255, 255, 255, 255, 255, 255, 255, 255, 255, 255, 255, 255, 255, 255, 255, 255, 255,
    255, 255, 255, 255, 255, 255, 255, 255, 255, 255, 255, 255, 255, 255, 255, 255, 255, 255, 255,
    255, 255, 255, 255, 255, 255, 255, 255, 255, 255, 255, 255, 255, 255, 255], by rfl⟩

/-- The flags of `encode_with`. -/
structure Encoding where
  urlSafe : Bool
  noPadding : Bool
deriving DecidableEq, Repr

/-- An index masked by `& 63`. -/
def sextet (n : Nat) : Fin 64 :=
  ⟨n &&& 63, Nat.lt_succ_of_le Nat.and_le_right⟩

/-- The byte of the character a table spells a sextet with. -/
def EncodeTable.spell (table : EncodeTable) (n : Nat) : UInt8 :=
  UInt8.ofNat (table.get (sextet n)).toNat

/-- The value a table reads a byte as. -/
def DecodeTable.read (table : DecodeTable) (c : UInt8) : Nat :=
  (table.get c.toFin).toNat

def padding : UInt8 := UInt8.ofNat '='.toNat

def encodeImpl (table : EncodeTable) (pad : Bool) : List UInt8 → List UInt8
  | [] => []
  | [b0] =>
    [table.spell (b0.toNat >>> 2), table.spell (b0.toNat <<< 4)] ++
      if pad then [padding, padding] else []
  | [b0, b1] =>
    [table.spell (b0.toNat >>> 2), table.spell (b0.toNat <<< 4 ||| b1.toNat >>> 4),
      table.spell (b1.toNat <<< 2)] ++
      if pad then [padding] else []
  | b0 :: b1 :: b2 :: data =>
    table.spell (b0.toNat >>> 2) :: table.spell (b0.toNat <<< 4 ||| b1.toNat >>> 4) ::
      table.spell (b1.toNat <<< 2 ||| b2.toNat >>> 6) ::
      table.spell b2.toNat :: encodeImpl table pad data

def encode (data : List UInt8) : List UInt8 :=
  encodeImpl standardTable true data

def encodeUrl (data : List UInt8) : List UInt8 :=
  encodeImpl urlSafeTable false data

def encodeWith (data : List UInt8) (encoding : Encoding) : List UInt8 :=
  if encoding.urlSafe then encodeImpl urlSafeTable (!encoding.noPadding) data
  else encodeImpl standardTable (!encoding.noPadding) data

/-- The end of the input before its trailing padding, searched down from a
position. -/
def unpaddedEnd (input : List UInt8) : Nat → Nat
  | 0 => 0
  | n + 1 => if input[n]? = some padding then unpaddedEnd input n else n + 1

/-- The groups of four characters up to the end, then the last group of two
or three. A last group of one has been refused before. -/
def decodeGroups (table : DecodeTable) (canonical : Bool) : List UInt8 → Option (List UInt8)
  | [] => some []
  | [_] => some []
  | [c0, c1] =>
    let v0 := table.read c0
    let v1 := table.read c1
    if v0 ≥ 254 ∨ v1 ≥ 254 then none
    else if canonical ∧ v1 &&& 15 ≠ 0 then none
    else some [UInt8.ofNat (v0 <<< 2 ||| v1 >>> 4)]
  | [c0, c1, c2] =>
    let v0 := table.read c0
    let v1 := table.read c1
    let v2 := table.read c2
    if v0 ≥ 254 ∨ v1 ≥ 254 ∨ v2 ≥ 254 then none
    else if canonical ∧ v2 &&& 3 ≠ 0 then none
    else some [UInt8.ofNat (v0 <<< 2 ||| v1 >>> 4), UInt8.ofNat ((v1 &&& 15) <<< 4 ||| v2 >>> 2)]
  | c0 :: c1 :: c2 :: c3 :: input =>
    let v0 := table.read c0
    let v1 := table.read c1
    let v2 := table.read c2
    let v3 := table.read c3
    if v0 ≥ 254 ∨ v1 ≥ 254 ∨ v2 ≥ 254 ∨ v3 ≥ 254 then none
    else do
      let out ← decodeGroups table canonical input
      some (UInt8.ofNat (v0 <<< 2 ||| v1 >>> 4) :: UInt8.ofNat ((v1 &&& 15) <<< 4 ||| v2 >>> 2) ::
        UInt8.ofNat ((v2 &&& 3) <<< 6 ||| v3) :: out)

def decodeImpl (input : List UInt8) (table : DecodeTable) (canonical : Bool) :
    Option (List UInt8) :=
  let stop := if canonical then input.length else unpaddedEnd input input.length
  if stop % 4 = 1 then none else decodeGroups table canonical (input.take stop)

/-- Either alphabet, padded or not. -/
def decode (encoded : List UInt8) : Option (List UInt8) :=
  decodeImpl encoded decodeTable false

/-- The canonical spelling of `encodeUrl` only. -/
def decodeUrlStrict (encoded : List UInt8) : Option (List UInt8) :=
  decodeImpl encoded urlDecodeTable true

end Base64

end Wado

/-
Decoding inverts encoding, and the strict decoder accepts one spelling of a
byte string only.
-/

namespace Wado

namespace Base64

open BitFields

/-! ## The fields of a group -/

theorem and_63 (n : Nat) : n &&& 63 = n % 64 :=
  Nat.and_two_pow_sub_one_eq_mod n 6

theorem sextet_first {a : Nat} (ha : a < 256) : a >>> 2 &&& 63 = a / 4 := by
  rw [and_63, Nat.shiftRight_eq_div_pow]
  omega

theorem sextet_second {a b : Nat} (hb : b < 256) :
    (a <<< 4 ||| b >>> 4) &&& 63 = a % 4 * 16 + b / 16 := by
  have hlow : b >>> 4 < 2 ^ 4 := by
    rw [Nat.shiftRight_eq_div_pow]
    omega
  rw [and_63]
  have hfields := shiftLeft_or_mod a 2 hlow
  rw [Nat.shiftRight_eq_div_pow] at hfields ⊢
  exact hfields

theorem sextet_third {b c : Nat} (hc : c < 256) :
    (b <<< 2 ||| c >>> 6) &&& 63 = b % 16 * 4 + c / 64 := by
  have hlow : c >>> 6 < 2 ^ 2 := by
    rw [Nat.shiftRight_eq_div_pow]
    omega
  rw [and_63]
  have hfields := shiftLeft_or_mod b 4 hlow
  rw [Nat.shiftRight_eq_div_pow] at hfields ⊢
  exact hfields

theorem sextet_last (a : Nat) (i : Nat) (hi : i ≤ 6) :
    a <<< i &&& 63 = a % 2 ^ (6 - i) * 2 ^ i := by
  have hsplit : i + (6 - i) = 6 := by omega
  have hfields := shiftLeft_mod a i (6 - i)
  rw [hsplit] at hfields
  rw [and_63]
  exact hfields

theorem byte_first {v0 v1 : Nat} (hv1 : v1 < 64) : v0 <<< 2 ||| v1 >>> 4 = v0 * 4 + v1 / 16 := by
  have hlow : v1 >>> 4 < 2 ^ 2 := by
    rw [Nat.shiftRight_eq_div_pow]
    omega
  have hfields := shiftLeft_or v0 hlow
  rw [Nat.shiftRight_eq_div_pow] at hfields ⊢
  exact hfields

theorem byte_second {v1 v2 : Nat} (hv2 : v2 < 64) :
    (v1 &&& 15) <<< 4 ||| v2 >>> 2 = v1 % 16 * 16 + v2 / 4 := by
  have hlow : v2 >>> 2 < 2 ^ 4 := by
    rw [Nat.shiftRight_eq_div_pow]
    omega
  have hmask : v1 &&& 15 = v1 % 16 := Nat.and_two_pow_sub_one_eq_mod v1 4
  have hfields := shiftLeft_or (v1 % 16) hlow
  rw [hmask]
  rw [Nat.shiftRight_eq_div_pow] at hfields ⊢
  exact hfields

theorem byte_third {v2 v3 : Nat} (hv3 : v3 < 64) : (v2 &&& 3) <<< 6 ||| v3 = v2 % 4 * 64 + v3 := by
  have hmask : v2 &&& 3 = v2 % 4 := Nat.and_two_pow_sub_one_eq_mod v2 2
  rw [hmask]
  exact @shiftLeft_or _ v3 6 hv3

variable {n : Nat}

theorem ofNat_toNat_of_eq {b : UInt8} (h : n = b.toNat) : UInt8.ofNat n = b := by
  rw [h, UInt8.ofNat_toNat]

/-! ## Tables -/

/-- The decoder reads every character of the alphabet back. -/
def Reads (decoder : DecodeTable) (encoder : EncodeTable) : Prop :=
  ∀ v : Fin 64, decoder.read (UInt8.ofNat (encoder.get v).toNat) = v.val

/-- The decoder reads the characters of the alphabet only. -/
def ReadsOnly (decoder : DecodeTable) (encoder : EncodeTable) : Prop :=
  ∀ c : UInt8, decoder.read c < 254 →
    ∃ v : Fin 64, decoder.read c = v.val ∧ UInt8.ofNat (encoder.get v).toNat = c

/-- The values of letters and digits by their runs in ASCII, and of the other bytes. -/
def runs (other : Nat → Nat) (c : Nat) : Nat :=
  if 65 ≤ c ∧ c ≤ 90 then c - 65
  else if 97 ≤ c ∧ c ≤ 122 then c - 71
  else if 48 ≤ c ∧ c ≤ 57 then c + 4
  else other c

def bothOther (c : Nat) : Nat :=
  if c = 43 ∨ c = 45 then 62 else if c = 47 ∨ c = 95 then 63 else if c = 61 then 254 else 255

def urlOther (c : Nat) : Nat := if c = 45 then 62 else if c = 95 then 63 else 255

/-- A table has its entries by the runs. -/
def Follows (table : DecodeTable) (value : Nat → Nat) : Prop :=
  ∀ entry ∈ table.toList.zipIdx, entry.1.toNat = value entry.2

/-- The runs give every character of an alphabet its place, and the padding is none. -/
def Spells (encoder : EncodeTable) (value : Nat → Nat) : Prop :=
  ∀ entry ∈ encoder.toList.zipIdx, value (UInt8.ofNat entry.1.toNat).toNat = entry.2 ∧
    UInt8.ofNat entry.1.toNat ≠ padding

/-- The tables are gone through once. -/
theorem tables_follow : Follows decodeTable (runs bothOther) ∧
    Follows urlDecodeTable (runs urlOther) ∧ Spells standardTable (runs bothOther) ∧
    Spells urlSafeTable (runs bothOther) ∧ Spells urlSafeTable (runs urlOther) := by
  unfold Follows Spells
  set_option maxRecDepth 8000 in decide

variable {value : Nat → Nat}

variable {table : DecodeTable}

theorem Follows.read_eq (h : Follows table value) (c : UInt8) : table.read c = value c.toNat := by
  apply h (table.get c.toFin, c.toNat)
  rw [List.mk_mem_zipIdx_iff_getElem?, List.getElem?_eq_some_iff]
  refine ⟨?_, rfl⟩
  rw [Vector.length_toList]
  exact c.toNat_lt

theorem EncodeTable.entry_mem (encoder : EncodeTable) (v : Fin 64) :
    (encoder.get v, v.val) ∈ encoder.toList.zipIdx := by
  rw [List.mk_mem_zipIdx_iff_getElem?, List.getElem?_eq_some_iff]
  refine ⟨?_, rfl⟩
  rw [Vector.length_toList]
  exact v.isLt

variable {encoder : EncodeTable}

theorem Follows.reads (h : Follows table value)
    (hspells : Spells encoder value) : Reads table encoder := by
  intro v
  rw [h.read_eq]
  exact (hspells _ (encoder.entry_mem v)).1

theorem decodeTable_reads_standard : Reads decodeTable standardTable :=
  tables_follow.1.reads tables_follow.2.2.1

theorem decodeTable_reads_urlSafe : Reads decodeTable urlSafeTable :=
  tables_follow.1.reads tables_follow.2.2.2.1

theorem urlDecodeTable_follows : Follows urlDecodeTable (runs urlOther) := tables_follow.2.1

theorem urlDecodeTable_reads : Reads urlDecodeTable urlSafeTable :=
  urlDecodeTable_follows.reads tables_follow.2.2.2.2

theorem urlRuns_lt {c : Nat} (h : runs urlOther c < 254) : runs urlOther c < 64 := by
  unfold runs urlOther at h ⊢
  split_ifs at h ⊢ <;> omega

theorem urlRuns_injective {c c' : Nat} (h : runs urlOther c < 254)
    (heq : runs urlOther c = runs urlOther c') : c = c' := by
  unfold runs urlOther at h heq
  split_ifs at h heq <;> omega

theorem urlDecodeTable_readsOnly : ReadsOnly urlDecodeTable urlSafeTable := by
  intro c hc
  have hspelled := urlDecodeTable_reads
  rw [urlDecodeTable_follows.read_eq] at hc ⊢
  have hv := hspelled ⟨runs urlOther c.toNat, urlRuns_lt hc⟩
  rw [urlDecodeTable_follows.read_eq] at hv
  exact ⟨⟨runs urlOther c.toNat, urlRuns_lt hc⟩, rfl,
    (UInt8.toNat_inj.mp (urlRuns_injective hc hv.symm)).symm⟩

section Groups

variable {decoder : DecodeTable} {encoder : EncodeTable}

theorem Reads.read_spell (h : Reads decoder encoder) (n : Nat) : decoder.read (encoder.spell n) =
    n &&& 63 :=
  h (sextet n)

variable {c : UInt8}

theorem ReadsOnly.spell_read (h : ReadsOnly decoder encoder)
    (hc : decoder.read c < 254) (hn : n &&& 63 = decoder.read c) : encoder.spell n = c := by
  obtain ⟨v, hv, hspell⟩ := h c hc
  have hsextet : sextet n = v := Fin.ext (hn.trans hv)
  rw [EncodeTable.spell, hsextet]
  exact hspell

theorem ReadsOnly.read_lt (h : ReadsOnly decoder encoder)
    (hc : decoder.read c < 254) : decoder.read c < 64 := by
  obtain ⟨v, hv, -⟩ := h c hc
  rw [hv]
  exact v.isLt

/-! ## One group -/

variable {v : Nat}

theorem unused_four (h : v % 16 = 0) : v &&& 15 = 0 :=
  (Nat.and_two_pow_sub_one_eq_mod v 4).trans h

theorem unused_two (h : v % 4 = 0) : v &&& 3 = 0 :=
  (Nat.and_two_pow_sub_one_eq_mod v 2).trans h

variable (canonical : Bool)

theorem decodeGroups_two {c0 c1 : UInt8} {v0 v1 : Nat}
    (hc0 : decoder.read c0 = v0) (hc1 : decoder.read c1 = v1)
    (hv0 : v0 < 64) (hv1 : v1 < 64) (hunused : v1 % 16 = 0) :
    decodeGroups decoder canonical [c0, c1] = some [UInt8.ofNat (v0 * 4 + v1 / 16)] := by
  simp only [decodeGroups, hc0, hc1]
  rw [if_neg (by omega), if_neg (fun h => h.2 (unused_four hunused)), byte_first hv1]

theorem decodeGroups_three {c0 c1 c2 : UInt8} {v0 v1 v2 : Nat}
    (hc0 : decoder.read c0 = v0) (hc1 : decoder.read c1 = v1) (hc2 : decoder.read c2 = v2)
    (hv0 : v0 < 64) (hv1 : v1 < 64) (hv2 : v2 < 64) (hunused : v2 % 4 = 0) :
    decodeGroups decoder canonical [c0, c1, c2] =
      some [UInt8.ofNat (v0 * 4 + v1 / 16), UInt8.ofNat (v1 % 16 * 16 + v2 / 4)] := by
  simp only [decodeGroups, hc0, hc1, hc2]
  rw [if_neg (by omega), if_neg (fun h => h.2 (unused_two hunused)), byte_first hv1,
    byte_second hv2]

theorem decodeGroups_four {c0 c1 c2 c3 : UInt8} {v0 v1 v2 v3 : Nat}
    (hc0 : decoder.read c0 = v0) (hc1 : decoder.read c1 = v1) (hc2 : decoder.read c2 = v2)
    (hc3 : decoder.read c3 = v3)
    (hv0 : v0 < 64) (hv1 : v1 < 64) (hv2 : v2 < 64) (hv3 : v3 < 64) (input : List UInt8) :
    decodeGroups decoder canonical (c0 :: c1 :: c2 :: c3 :: input) =
      (decodeGroups decoder canonical input).map fun out =>
        UInt8.ofNat (v0 * 4 + v1 / 16) :: UInt8.ofNat (v1 % 16 * 16 + v2 / 4) ::
          UInt8.ofNat (v2 % 4 * 64 + v3) :: out := by
  simp only [decodeGroups, hc0, hc1, hc2, hc3]
  rw [if_neg (by omega), byte_first hv1, byte_second hv2, byte_third hv3]
  cases decodeGroups decoder canonical input <;> rfl

/-! ## Decoding what was encoded -/

theorem decodeGroups_encodeImpl (h : Reads decoder encoder) (canonical : Bool)
    (data : List UInt8) :
    decodeGroups decoder canonical (encodeImpl encoder false data) = some data := by
  induction data using encodeImpl.induct with
  | case1 => rfl
  | case2 b0 =>
    have hb0 := b0.toNat_lt
    have hv0 := (h.read_spell _).trans (sextet_first hb0)
    have hv1 := (h.read_spell _).trans (sextet_last b0.toNat 4 (by decide))
    have htwo := decodeGroups_two canonical hv0 hv1 (by omega) (by omega) (by omega)
    rw [ofNat_toNat_of_eq (b := b0) (by omega)] at htwo
    exact htwo
  | case3 b0 b1 =>
    have hb0 := b0.toNat_lt
    have hb1 := b1.toNat_lt
    have hv0 := (h.read_spell _).trans (sextet_first hb0)
    have hv1 := (h.read_spell _).trans (@sextet_second b0.toNat _ hb1)
    have hv2 := (h.read_spell _).trans (sextet_last b1.toNat 2 (by decide))
    have hthree := decodeGroups_three canonical hv0 hv1 hv2 (by omega) (by omega) (by omega)
      (by omega)
    rw [ofNat_toNat_of_eq (b := b0) (by omega), ofNat_toNat_of_eq (b := b1) (by omega)]
      at hthree
    exact hthree
  | case4 b0 b1 b2 data ih =>
    have hb0 := b0.toNat_lt
    have hb1 := b1.toNat_lt
    have hb2 := b2.toNat_lt
    have hv0 := (h.read_spell _).trans (sextet_first hb0)
    have hv1 := (h.read_spell _).trans (@sextet_second b0.toNat _ hb1)
    have hv2 := (h.read_spell _).trans (@sextet_third b1.toNat _ hb2)
    have hv3 := (h.read_spell _).trans (and_63 b2.toNat)
    have hfour := decodeGroups_four canonical hv0 hv1 hv2 hv3 (by omega) (by omega) (by omega)
      (by omega) (encodeImpl encoder false data)
    rw [ofNat_toNat_of_eq (b := b0) (by omega), ofNat_toNat_of_eq (b := b1) (by omega),
      ofNat_toNat_of_eq (b := b2) (by omega), ih] at hfour
    exact hfour

/-! ## Encoding what was decoded strictly -/

theorem ofNat_toNat_of_lt (h : n < 256) : (UInt8.ofNat n).toNat = n := by
  rw [UInt8.toNat_ofNat', Nat.mod_eq_of_lt h]

theorem read_lt_of_not_ge (h : ReadsOnly decoder encoder)
    (hc : ¬ decoder.read c ≥ 254) : decoder.read c < 64 :=
  h.read_lt (Nat.lt_of_not_le hc)

theorem and_15_eq_zero (h : ¬ (True ∧ v &&& 15 ≠ 0)) : v % 16 = 0 := by
  rw [← Nat.and_two_pow_sub_one_eq_mod v 4]
  exact Classical.not_not.mp fun hne => h ⟨trivial, hne⟩

theorem and_3_eq_zero (h : ¬ (True ∧ v &&& 3 ≠ 0)) : v % 4 = 0 := by
  rw [← Nat.and_two_pow_sub_one_eq_mod v 2]
  exact Classical.not_not.mp fun hne => h ⟨trivial, hne⟩

theorem encodeImpl_of_decodeGroups (h : ReadsOnly decoder encoder) :
    ∀ {input data : List UInt8}, input.length % 4 ≠ 1 →
      decodeGroups decoder true input = some data → encodeImpl encoder false data = input
  | [], data, _, hdata => by
    cases hdata
    rfl
  | [c], data, hlength, _ => absurd rfl hlength
  | [c0, c1], data, _, hdata => by
    simp only [decodeGroups] at hdata
    split_ifs at hdata with hrefused hunused
    obtain ⟨hc0, hc1⟩ := not_or.mp hrefused
    have hv0 := read_lt_of_not_ge h hc0
    have hv1 := read_lt_of_not_ge h hc1
    have hlow := and_15_eq_zero hunused
    cases hdata
    rw [byte_first hv1, encodeImpl, ofNat_toNat_of_lt (by omega)]
    rw [h.spell_read (c := c0) (by omega) ((sextet_first (by omega)).trans (by omega))]
    rw [h.spell_read (c := c1) (by omega) ((sextet_last _ 4 (by decide)).trans (by omega))]
    rfl
  | [c0, c1, c2], data, _, hdata => by
    simp only [decodeGroups] at hdata
    split_ifs at hdata with hrefused hunused
    obtain ⟨hc0, hc12⟩ := not_or.mp hrefused
    obtain ⟨hc1, hc2⟩ := not_or.mp hc12
    have hv0 := read_lt_of_not_ge h hc0
    have hv1 := read_lt_of_not_ge h hc1
    have hv2 := read_lt_of_not_ge h hc2
    have hlow := and_3_eq_zero hunused
    cases hdata
    rw [byte_first hv1, byte_second hv2, encodeImpl, ofNat_toNat_of_lt (by omega),
      ofNat_toNat_of_lt (by omega)]
    rw [h.spell_read (c := c0) (by omega) ((sextet_first (by omega)).trans (by omega))]
    rw [h.spell_read (c := c1) (by omega) ((sextet_second (by omega)).trans (by omega))]
    rw [h.spell_read (c := c2) (by omega) ((sextet_last _ 2 (by decide)).trans (by omega))]
    rfl
  | c0 :: c1 :: c2 :: c3 :: input, data, hlength, hdata => by
    simp only [decodeGroups] at hdata
    split_ifs at hdata with hrefused
    obtain ⟨hc0, hc123⟩ := not_or.mp hrefused
    obtain ⟨hc1, hc23⟩ := not_or.mp hc123
    obtain ⟨hc2, hc3⟩ := not_or.mp hc23
    have hv0 := read_lt_of_not_ge h hc0
    have hv1 := read_lt_of_not_ge h hc1
    have hv2 := read_lt_of_not_ge h hc2
    have hv3 := read_lt_of_not_ge h hc3
    obtain ⟨out, hout, hdata⟩ := Option.bind_eq_some_iff.mp hdata
    have hrest : input.length % 4 ≠ 1 := by
      simp only [List.length_cons] at hlength
      omega
    have ih := encodeImpl_of_decodeGroups h hrest hout
    cases hdata
    rw [byte_first hv1, byte_second hv2, byte_third hv3, encodeImpl,
      ofNat_toNat_of_lt (by omega), ofNat_toNat_of_lt (by omega),
      ofNat_toNat_of_lt (by omega), ih]
    rw [h.spell_read (c := c0) (by omega) ((sextet_first (by omega)).trans (by omega))]
    rw [h.spell_read (c := c1) (by omega) ((sextet_second (by omega)).trans (by omega))]
    rw [h.spell_read (c := c2) (by omega) ((sextet_third (by omega)).trans (by omega))]
    rw [h.spell_read (c := c3) (by omega) ((and_63 _).trans (by omega))]

end Groups

/-! ## Padding -/

/-- How many padding characters end the text of so many bytes. -/
def paddingLength (n : Nat) : Nat :=
  if n % 3 = 1 then 2 else if n % 3 = 2 then 1 else 0

theorem encodeImpl_pad (encoder : EncodeTable) (data : List UInt8) : encodeImpl encoder true data =
      encodeImpl encoder false data ++ List.replicate (paddingLength data.length) padding := by
  induction data using encodeImpl.induct with
  | case1 => rfl
  | case2 b0 => rfl
  | case3 b0 b1 => rfl
  | case4 b0 b1 b2 data ih =>
    have hlength : paddingLength (b0 :: b1 :: b2 :: data).length = paddingLength data.length := by
      simp only [paddingLength, List.length_cons, Nat.add_assoc]
      rw [Nat.add_mod_right]
    simp only [encodeImpl, ih, hlength, List.cons_append]

theorem length_encodeImpl (encoder : EncodeTable) (data : List UInt8) :
    (encodeImpl encoder false data).length % 4 ≠ 1 := by
  induction data using encodeImpl.induct with
  | case1 => simp [encodeImpl]
  | case2 b0 => simp [encodeImpl]
  | case3 b0 b1 => simp [encodeImpl]
  | case4 b0 b1 b2 data ih =>
    simp only [encodeImpl, List.length_cons]
    omega

/-- No character of the alphabet is the padding character. -/
def Unpadded (encoder : EncodeTable) : Prop :=
  ∀ v : Fin 64, UInt8.ofNat (encoder.get v).toNat ≠ padding

theorem Spells.unpadded (h : Spells encoder value) :
    Unpadded encoder :=
  fun v => (h _ (encoder.entry_mem v)).2

theorem standardTable_unpadded : Unpadded standardTable := tables_follow.2.2.1.unpadded

theorem urlSafeTable_unpadded : Unpadded urlSafeTable := tables_follow.2.2.2.1.unpadded

theorem padding_notMem_encodeImpl (h : Unpadded encoder)
    (data : List UInt8) : padding ∉ encodeImpl encoder false data := by
  have hspell : ∀ n, padding ≠ encoder.spell n := fun n heq => h (sextet n) heq.symm
  induction data using encodeImpl.induct with
  | case1 => simp [encodeImpl]
  | case2 b0 => simp [encodeImpl, hspell]
  | case3 b0 b1 => simp [encodeImpl, hspell]
  | case4 b0 b1 b2 data ih => simp [encodeImpl, hspell, ih]

theorem unpaddedEnd_append {body : List UInt8} (h : padding ∉ body) (k : Nat) :
    unpaddedEnd (body ++ List.replicate k padding) (body.length + k) = body.length := by
  suffices hall : ∀ n, n ≤ k →
      unpaddedEnd (body ++ List.replicate k padding) (body.length + n) = body.length from
    hall k (Nat.le_refl k)
  intro n hn
  induction n with
  | zero =>
    rcases List.eq_nil_or_concat body with rfl | ⟨body, c, rfl⟩
    · rfl
    · have hc : c ≠ padding := fun heq => h (by simp [heq])
      simp [unpaddedEnd, hc]
  | succ n ih =>
    have hpad : (body ++ List.replicate k padding)[body.length + n]? = some padding := by
      rw [List.getElem?_append_right (by omega), List.getElem?_replicate, if_pos (by omega)]
    rw [← Nat.add_assoc, unpaddedEnd, if_pos hpad]
    exact ih (by omega)

theorem decodeImpl_encodeImpl {decoder : DecodeTable}
    (hreads : Reads decoder encoder) (hunpadded : Unpadded encoder) (pad : Bool)
    (data : List UInt8) : decodeImpl (encodeImpl encoder pad data) decoder false = some data := by
  obtain ⟨k, hk⟩ : ∃ k, encodeImpl encoder pad data =
      encodeImpl encoder false data ++ List.replicate k padding := by
    cases pad with
    | false => exact ⟨0, by simp⟩
    | true => exact ⟨_, encodeImpl_pad encoder data⟩
  have hstop := unpaddedEnd_append (padding_notMem_encodeImpl hunpadded data) k
  simp only [decodeImpl, hk, List.length_append, List.length_replicate, Bool.false_eq_true,
    if_false, hstop]
  rw [if_neg (length_encodeImpl encoder data), List.take_left]
  exact decodeGroups_encodeImpl hreads false data

theorem decode_encodeWith (data : List UInt8) (encoding : Encoding) :
    decode (encodeWith data encoding) = some data := by
  unfold decode encodeWith
  cases encoding.urlSafe with
  | false =>
    exact decodeImpl_encodeImpl decodeTable_reads_standard standardTable_unpadded _ data
  | true =>
    exact decodeImpl_encodeImpl decodeTable_reads_urlSafe urlSafeTable_unpadded _ data

theorem decodeUrlStrict_eq_some_iff (encoded data : List UInt8) :
    decodeUrlStrict encoded = some data ↔ encoded = encodeUrl data := by
  simp only [decodeUrlStrict, decodeImpl, if_true, List.take_length]
  constructor
  · intro h
    split_ifs at h with hlength
    exact (encodeImpl_of_decodeGroups urlDecodeTable_readsOnly hlength h).symm
  · intro h
    rw [h, encodeUrl, if_neg (length_encodeImpl urlSafeTable data)]
    exact decodeGroups_encodeImpl urlDecodeTable_reads true data

/-- Decoding inverts encoding under every combination of flags, and a byte
string has one spelling that the strict decoder accepts. -/
theorem decode_inverts_encode : (∀ data encoding, decode (encodeWith data encoding) = some data) ∧
    (∀ encoded data, decodeUrlStrict encoded = some data ↔ encoded = encodeUrl data) ∧
    ∀ encoded encoded' data, decodeUrlStrict encoded = some data →
      decodeUrlStrict encoded' = some data → encoded = encoded' := by
  refine ⟨decode_encodeWith, decodeUrlStrict_eq_some_iff, ?_⟩
  intro encoded encoded' data h h'
  rw [decodeUrlStrict_eq_some_iff] at h h'
  exact h.trans h'.symm

end Base64

end Wado
