/-
A range of code points as the UTF-8 byte sequences that encode it.
-/
import Mathlib.Data.List.Forall2
import Mathlib.Data.Nat.Bitwise

namespace Wado.Re.Utf8

open List UInt8

/-- A `u32` as a byte, its low eight bits. -/
abbrev asU8 (n : Nat) : UInt8 := UInt8.ofNat n

/-- `~m` of a `u32`. -/
def not32 (m : Nat) : Nat := 0xFFFFFFFF ^^^ m

def encodedLen (c : Nat) : Nat :=
  if c < 0x80 then 1
  else if c < 0x800 then 2
  else if c < 0x10000 then 3
  else 4

def encode (c : Nat) : List UInt8 :=
  let cont := fun shift => asU8 (0x80 ||| (c >>> shift &&& 0x3F))
  match encodedLen c with
  | 1 => [asU8 c]
  | 2 => [asU8 (0xC0 ||| c >>> 6), cont 0]
  | 3 => [asU8 (0xE0 ||| c >>> 12), cont 6, cont 0]
  | _ => [asU8 (0xF0 ||| c >>> 18), cont 12, cont 6, cont 0]

/-- One byte range per byte. -/
abbrev Seq := List (UInt8 × UInt8)

/-- The bits below the `i`th byte from the end. -/
def low (i : Nat) : Nat := (1 <<< (6 * i)) - 1

/-- The two ranges to split into where the bits below the `i`th byte from the end do
not span all of a block though a higher byte varies. -/
def blockSplit (lo hi i : Nat) : Option ((Nat × Nat) × (Nat × Nat)) :=
  let m := low i
  if lo &&& not32 m ≠ hi &&& not32 m then
    if lo &&& m ≠ 0 then some ((lo, lo ||| m), ((lo ||| m) + 1, hi))
    else if hi &&& m ≠ m then some ((lo, (hi &&& not32 m) - 1), (hi &&& not32 m, hi))
    else none
  else none

/-- The sequences encoding `[lo, hi]`, surrogates left out, after those of `out`; `none`
where the calls nest deeper than `fuel`. -/
def sequences : Nat → Nat → Nat → List Seq → Option (List Seq)
  | 0, _, _, _ => none
  | fuel + 1, lo, hi, out =>
    if lo > hi then some out
    else if lo ≤ 0xDFFF ∧ hi ≥ 0xD800 then
      (if lo < 0xD800 then sequences fuel lo 0xD7FF out else some out).bind fun out =>
        if hi > 0xDFFF then sequences fuel 0xE000 hi out else some out
    else
      match [0x7F, 0x7FF, 0xFFFF].find? fun top => lo ≤ top && hi > top with
      | some top => (sequences fuel lo top out).bind (sequences fuel (top + 1) hi)
      | none =>
        match (List.range' 1 (encodedLen lo - 1)).findSome? (blockSplit lo hi) with
        | some (first, second) =>
          (sequences fuel first.1 first.2 out).bind (sequences fuel second.1 second.2)
        | none => some (out ++ [(encode lo).zip (encode hi)])

/-- Each byte is in the range at its place. -/
def Matches (seq : Seq) (bytes : List UInt8) : Prop :=
  List.Forall₂ (fun range byte => range.1 ≤ byte ∧ byte ≤ range.2) seq bytes

section Bits

theorem pow_sixtyFour (i : Nat) : 64 ^ i = 2 ^ (6 * i) := by
  rw [Nat.pow_mul]

theorem low_eq (i : Nat) : low i = 64 ^ i - 1 := by
  rw [low, Nat.shiftLeft_eq, Nat.one_mul, pow_sixtyFour]

theorem and_low (c i : Nat) : c &&& low i = c % 64 ^ i := by
  rw [low_eq, pow_sixtyFour, Nat.and_two_pow_sub_one_eq_mod]

theorem testBit_of_le {c bit : Nat} (hc : c < 2 ^ 32) (hbit : 32 ≤ bit) : c.testBit bit = false :=
  Nat.testBit_eq_false_of_lt (Nat.lt_of_lt_of_le hc (Nat.pow_le_pow_right (by omega) hbit))

theorem and_not_low {c i : Nat} (hc : c < 2 ^ 32) : c &&& not32 (low i) = c / 64 ^ i * 64 ^ i := by
  rw [not32, low_eq, pow_sixtyFour]
  apply Nat.eq_of_testBit_eq
  intro bit
  rw [Nat.testBit_and, Nat.testBit_xor, Nat.testBit_two_pow_sub_one,
    show (0xFFFFFFFF : Nat) = 2 ^ 32 - 1 from rfl, Nat.testBit_two_pow_sub_one,
    Nat.testBit_mul_two_pow, Nat.testBit_div_two_pow]
  by_cases hbit : 6 * i ≤ bit
  · have hsame : bit - 6 * i + 6 * i = bit := by omega
    by_cases h32 : bit < 32
    · simp [hbit, h32, hsame, Nat.not_lt.mpr hbit]
    · simp [hsame, testBit_of_le hc (Nat.not_lt.mp h32)]
  · by_cases h32 : bit < 32
    · simp [hbit, h32, Nat.lt_of_not_le hbit]
    · simp [hbit, testBit_of_le hc (Nat.not_lt.mp h32)]

theorem or_low (c i : Nat) : c ||| low i = c / 64 ^ i * 64 ^ i + (64 ^ i - 1) := by
  have hpos : 0 < 2 ^ (6 * i) := Nat.two_pow_pos _
  rw [low_eq, pow_sixtyFour, Nat.mul_comm (c / _), Nat.two_pow_add_eq_or_of_lt (by omega)]
  apply Nat.eq_of_testBit_eq
  intro bit
  rw [Nat.testBit_or, Nat.testBit_or, Nat.testBit_two_pow_sub_one, Nat.mul_comm (2 ^ _),
    Nat.testBit_mul_two_pow, Nat.testBit_div_two_pow]
  by_cases hbit : 6 * i ≤ bit
  · have hsame : bit - 6 * i + 6 * i = bit := by omega
    simp [hbit, hsame]
  · simp [hbit, Nat.lt_of_not_le hbit]

end Bits

section Code

/-- A code point's bytes below a lead: `k` continuation bytes of six bits each. -/
def code (lead : Nat) : Nat → Nat → List UInt8
  | 0, c => [asU8 (lead + c)]
  | k + 1, c => code lead k (c / 64) ++ [asU8 (0x80 + c % 64)]

@[simp] theorem length_code (lead k c : Nat) : (code lead k c).length = k + 1 := by
  induction k generalizing c with
  | zero => rfl
  | succ k ih => rw [code, length_append, ih, length_singleton]

theorem asU8_inj {a b : Nat} (ha : a < 256) (hb : b < 256) (h : asU8 a = asU8 b) : a = b := by
  have hnat := congrArg UInt8.toNat h
  rwa [toNat_ofNat', toNat_ofNat', Nat.mod_eq_of_lt ha, Nat.mod_eq_of_lt hb] at hnat

theorem code_inj {lead : Nat} {k c c' : Nat} (hc : lead + c / 64 ^ k < 256)
    (hc' : lead + c' / 64 ^ k < 256) (h : code lead k c = code lead k c') : c = c' := by
  induction k generalizing c c' with
  | zero =>
    rw [Nat.pow_zero, Nat.div_one] at hc hc'
    have := asU8_inj hc hc' (singleton_inj.mp h)
    omega
  | succ k ih =>
    rw [Nat.pow_succ', ← Nat.div_div_eq_div_mul] at hc hc'
    have hsplit := append_inj h (by simp)
    have hhigh := ih hc hc' hsplit.1
    have hlow := asU8_inj (by omega) (by omega) (singleton_inj.mp hsplit.2)
    omega

/-- The bytes from one byte's value to another's, over the same base. -/
theorem byte_between {base x y : Nat} (h : base + y < 256) (hxy : x ≤ y) (b : UInt8) :
    (asU8 (base + x) ≤ b ∧ b ≤ asU8 (base + y)) ↔ ∃ d, x ≤ d ∧ d ≤ y ∧ b = asU8 (base + d) := by
  rw [le_iff_toNat_le, le_iff_toNat_le, toNat_ofNat', toNat_ofNat',
    Nat.mod_eq_of_lt (by omega), Nat.mod_eq_of_lt h]
  constructor
  · rintro ⟨hlo, hhi⟩
    refine ⟨b.toNat - base, by omega, by omega, ?_⟩
    rw [Nat.add_sub_cancel' (by omega), asU8, UInt8.ofNat_toNat]
  · rintro ⟨d, hlo, hhi, rfl⟩
    rw [toNat_ofNat', Nat.mod_eq_of_lt (by omega)]
    omega

/-- At each of the lower `k` bytes either no higher byte varies, or the bits from there
down span all of a block. -/
def Aligned (k lo hi : Nat) : Prop :=
  ∀ i, 1 ≤ i → i ≤ k → lo / 64 ^ i = hi / 64 ^ i ∨ (lo % 64 ^ i = 0 ∧ hi % 64 ^ i = 64 ^ i - 1)

theorem Aligned.high {k lo hi : Nat} (h : Aligned (k + 1) lo hi) :
    Aligned k (lo / 64) (hi / 64) := by
  intro i hi1 hik
  have hpos : 0 < 64 ^ i := Nat.pow_pos (by decide)
  rw [Nat.div_div_eq_div_mul, Nat.div_div_eq_div_mul, ← Nat.mod_mul_right_div_self,
    ← Nat.mod_mul_right_div_self, ← Nat.pow_succ']
  rcases h (i + 1) (by omega) (by omega) with hsame | ⟨hlo, hhi⟩
  · exact Or.inl hsame
  · rw [hlo, hhi, Nat.pow_succ]
    omega

theorem matches_append_singleton {seq : Seq} {range : UInt8 × UInt8} {bytes : List UInt8} :
    Matches (seq ++ [range]) bytes ↔
      ∃ front b, bytes = front ++ [b] ∧ Matches seq front ∧ range.1 ≤ b ∧ b ≤ range.2 := by
  induction seq generalizing bytes with
  | nil =>
    constructor
    · intro h
      obtain ⟨b, rest, hb, hrest, rfl⟩ := forall₂_cons_left_iff.mp h
      cases hrest
      exact ⟨[], b, rfl, .nil, hb⟩
    · rintro ⟨front, b, rfl, hfront, hb⟩
      cases hfront
      exact .cons hb .nil
  | cons first seq ih =>
    constructor
    · intro h
      obtain ⟨byte, rest, hbyte, hrest, rfl⟩ := forall₂_cons_left_iff.mp h
      obtain ⟨front, b, rfl, hfront, hb⟩ := ih.mp hrest
      exact ⟨byte :: front, b, rfl, .cons hbyte hfront, hb⟩
    · rintro ⟨front, b, rfl, hfront, hb⟩
      obtain ⟨byte, rest, hbyte, hrest, rfl⟩ := forall₂_cons_left_iff.mp hfront
      exact .cons hbyte (ih.mpr ⟨rest, b, rfl, hrest, hb⟩)

/-- Where the range is aligned, its bytes range independently. -/
theorem matches_code {lead k lo hi : Nat} (hle : lo ≤ hi) (halign : Aligned k lo hi)
    (hlead : lead + hi / 64 ^ k < 256) (bytes : List UInt8) :
    Matches ((code lead k lo).zip (code lead k hi)) bytes ↔
      ∃ c, lo ≤ c ∧ c ≤ hi ∧ bytes = code lead k c := by
  induction k generalizing lo hi bytes with
  | zero =>
    rw [Nat.pow_zero, Nat.div_one] at hlead
    rw [code, code, zip_cons_cons, zip_nil_left, ← nil_append [_],
      matches_append_singleton]
    constructor
    · rintro ⟨front, b, rfl, hfront, hb⟩
      cases hfront
      obtain ⟨c, hlo, hhi, rfl⟩ := (byte_between hlead hle b).mp hb
      exact ⟨c, hlo, hhi, rfl⟩
    · rintro ⟨c, hlo, hhi, rfl⟩
      exact ⟨[], asU8 (lead + c), rfl, .nil, (byte_between hlead hle _).mpr ⟨c, hlo, hhi, rfl⟩⟩
  | succ k ih =>
    rw [Nat.pow_succ', ← Nat.div_div_eq_div_mul] at hlead
    have hblock := halign 1 (Nat.le_refl _) (by omega)
    rw [Nat.pow_one] at hblock
    rw [code, code, zip_append (by simp), zip_cons_cons, zip_nil_left,
      matches_append_singleton]
    constructor
    · rintro ⟨front, b, rfl, hfront, hb⟩
      obtain ⟨high, hlo, hhi, rfl⟩ := (ih (by omega) halign.high hlead front).mp hfront
      obtain ⟨d, hdlo, hdhi, rfl⟩ := (byte_between (by omega) (by omega) b).mp hb
      refine ⟨64 * high + d, by omega, by omega, ?_⟩
      rw [code, show (64 * high + d) / 64 = high by omega, show (64 * high + d) % 64 = d by omega]
    · rintro ⟨c, hlo, hhi, rfl⟩
      refine ⟨code lead k (c / 64), _, rfl, ?_, ?_⟩
      · exact (ih (by omega) halign.high hlead _).mpr ⟨c / 64, by omega, by omega, rfl⟩
      · exact (byte_between (by omega) (by omega) _).mpr ⟨c % 64, by omega, by omega, rfl⟩

end Code

variable {c : Nat}

section Encode

/-- The lead's own bits where `k` bytes continue it. -/
def leadBits : Nat → Nat
  | 0 => 0
  | 1 => 0xC0
  | 2 => 0xE0
  | _ => 0xF0

theorem cont_eq (x : Nat) : 0x80 ||| (x &&& 0x3F) = 0x80 + x % 64 := by
  rw [show (0x3F : Nat) = 2 ^ 6 - 1 from rfl, Nat.and_two_pow_sub_one_eq_mod]
  exact (@Nat.two_pow_add_eq_or_of_lt 7 (x % 2 ^ 6) (by omega) 1).symm

theorem encode_eq_code (hc : c ≤ 0x10FFFF) :
    encode c = code (leadBits (encodedLen c - 1)) (encodedLen c - 1) c := by
  unfold encode encodedLen
  by_cases h1 : c < 0x80
  · simp [h1, code, leadBits]
  by_cases h2 : c < 0x800
  · have hlead := @Nat.two_pow_add_eq_or_of_lt 5 (c / 64) (by omega) 6
    simp only [h1, h2, if_true, if_false, cont_eq, Nat.shiftRight_eq_div_pow]
    rw [show 0xC0 ||| c / 2 ^ 6 = 0xC0 + c / 64 from hlead.symm]
    simp [code, leadBits]
  by_cases h3 : c < 0x10000
  · have hlead := @Nat.two_pow_add_eq_or_of_lt 4 (c / 4096) (by omega) 14
    simp only [h1, h2, h3, if_true, if_false, cont_eq, Nat.shiftRight_eq_div_pow]
    rw [show 0xE0 ||| c / 2 ^ 12 = 0xE0 + c / 4096 from hlead.symm]
    simp [code, leadBits, Nat.div_div_eq_div_mul]
  · have hlead := @Nat.two_pow_add_eq_or_of_lt 3 (c / 262144) (by omega) 30
    simp only [h1, h2, h3, if_false, cont_eq, Nat.shiftRight_eq_div_pow]
    rw [show 0xF0 ||| c / 2 ^ 18 = 0xF0 + c / 262144 from hlead.symm]
    simp [code, leadBits, Nat.div_div_eq_div_mul]

theorem lead_lt (hc : c ≤ 0x10FFFF) :
    leadBits (encodedLen c - 1) + c / 64 ^ (encodedLen c - 1) < 256 := by
  unfold encodedLen
  split
  · show 0 + c / 64 ^ 0 < 256
    omega
  split
  · show 0xC0 + c / 64 ^ 1 < 256
    omega
  split
  · show 0xE0 + c / 64 ^ 2 < 256
    omega
  · show 0xF0 + c / 64 ^ 3 < 256
    omega

theorem encodedLen_mono {c c' : Nat} (h : c ≤ c') : encodedLen c ≤ encodedLen c' := by
  unfold encodedLen
  split_ifs <;> omega

theorem length_encode (hc : c ≤ 0x10FFFF) : (encode c).length = encodedLen c := by
  have hpos : 1 ≤ encodedLen c := by
    unfold encodedLen
    split <;> [skip; split <;> [skip; split]] <;> omega
  rw [encode_eq_code hc, length_code]
  omega

theorem encode_inj {c c' : Nat} (hc : c ≤ 0x10FFFF) (hc' : c' ≤ 0x10FFFF)
    (h : encode c = encode c') : c = c' := by
  have hlen : encodedLen c = encodedLen c' := by
    rw [← length_encode hc, ← length_encode hc', h]
  have hlead := lead_lt hc
  rw [encode_eq_code hc, encode_eq_code hc', hlen] at h
  rw [hlen] at hlead
  exact code_inj hlead (lead_lt hc') h

theorem toNat_le (c : Char) : c.toNat ≤ 0x10FFFF := by
  rcases c.valid with h | ⟨-, h⟩
  · exact Nat.le_of_lt (Nat.lt_trans h (by decide))
  · exact Nat.le_of_lt_succ h

theorem sum_comm_ofNat (base x y : Nat) (h : x = y) : asU8 (base + x) = UInt8.ofNat (y + base) := by
  rw [h, Nat.add_comm]

/-- The source's encoding is UTF-8's. -/
theorem encode_toNat (c : Char) : encode c.toNat = String.utf8EncodeChar c := by
  have hc := toNat_le c
  rw [encode_eq_code hc]
  unfold String.utf8EncodeChar encodedLen
  rw [show c.val.toNat = c.toNat from rfl]
  generalize c.toNat = v at *
  by_cases h1 : v < 0x80
  · simp [h1, Nat.le_of_lt_succ h1, code, leadBits]
  by_cases h2 : v < 0x800
  · simp only [h1, h2, show ¬ v ≤ 0x7f by omega, show v ≤ 0x7ff by omega, if_true, if_false]
    exact congrArg₂ _ (sum_comm_ofNat _ _ _ (by omega))
      (congrArg₂ _ (sum_comm_ofNat _ _ _ rfl) rfl)
  by_cases h3 : v < 0x10000
  · simp only [h1, h2, h3, show ¬ v ≤ 0x7f by omega, show ¬ v ≤ 0x7ff by omega,
      show v ≤ 0xffff by omega, if_true, if_false]
    exact congrArg₂ _ (sum_comm_ofNat _ _ _ (by omega))
      (congrArg₂ _ (sum_comm_ofNat _ _ _ rfl) (congrArg₂ _ (sum_comm_ofNat _ _ _ rfl) rfl))
  · simp only [h1, h2, h3, show ¬ v ≤ 0x7f by omega, show ¬ v ≤ 0x7ff by omega,
      show ¬ v ≤ 0xffff by omega, if_false]
    exact congrArg₂ _ (sum_comm_ofNat _ _ _ (by omega))
      (congrArg₂ _ (sum_comm_ofNat _ _ _ (by omega))
        (congrArg₂ _ (sum_comm_ofNat _ _ _ rfl) (congrArg₂ _ (sum_comm_ofNat _ _ _ rfl) rfl)))

end Encode

section Sequences

/-- A code point UTF-8 encodes. -/
def Scalar (c : Nat) : Prop := c.isValidChar

/-- The sequences encode the scalar values from `lo` to `hi`, in ascending order. -/
structure Splits (lo hi : Nat) (seqs : List Seq) : Prop where
  encodes : ∀ bytes, (∃ seq ∈ seqs, Matches seq bytes) ↔
    ∃ c, lo ≤ c ∧ c ≤ hi ∧ Scalar c ∧ bytes = encode c
  ascending : seqs.Pairwise fun seq seq' => ∀ c c', Scalar c → Scalar c' →
    Matches seq (encode c) → Matches seq' (encode c') → c < c'

theorem Scalar.le (h : Scalar c) : c ≤ 0x10FFFF := by
  rcases h with h | ⟨-, h⟩
  · exact Nat.le_of_lt (Nat.lt_trans h (by decide))
  · exact Nat.le_of_lt_succ h

namespace Splits

variable {lo hi : Nat} {seqs : List Seq}

theorem bounds (h : Splits lo hi seqs) {seq : Seq} (hseq : seq ∈ seqs)
    (hc : Scalar c) (hmatches : Matches seq (encode c)) : lo ≤ c ∧ c ≤ hi := by
  obtain ⟨c', hlo, hhi, hscalar, hsame⟩ := (h.encodes _).mp ⟨seq, hseq, hmatches⟩
  rw [encode_inj hc.le hscalar.le hsame]
  exact ⟨hlo, hhi⟩

theorem empty (h : ∀ c, Scalar c → ¬ (lo ≤ c ∧ c ≤ hi)) : Splits lo hi [] where
  encodes := by
    intro bytes
    constructor
    · rintro ⟨seq, hseq, -⟩
      cases hseq
    · rintro ⟨c, hlo, hhi, hc, -⟩
      exact absurd ⟨hlo, hhi⟩ (h c hc)
  ascending := .nil

/-- Two ranges with no scalar value between them. -/
theorem append {mid mid' : Nat} {seqs' : List Seq} (h : Splits lo mid seqs)
    (h' : Splits mid' hi seqs') (hlt : mid < mid')
    (hall : ∀ c, Scalar c → (lo ≤ c ∧ c ≤ hi ↔ (lo ≤ c ∧ c ≤ mid) ∨ (mid' ≤ c ∧ c ≤ hi))) :
    Splits lo hi (seqs ++ seqs') where
  encodes := by
    intro bytes
    have hsplit : (∃ seq ∈ seqs ++ seqs', Matches seq bytes) ↔
        (∃ seq ∈ seqs, Matches seq bytes) ∨ ∃ seq ∈ seqs', Matches seq bytes := by
      simp only [mem_append, or_and_right, exists_or]
    rw [hsplit, h.encodes, h'.encodes]
    constructor
    · rintro (⟨c, hlo, hhi, hc, rfl⟩ | ⟨c, hlo, hhi, hc, rfl⟩)
      · have hin := (hall c hc).mpr (Or.inl ⟨hlo, hhi⟩)
        exact ⟨c, hin.1, hin.2, hc, rfl⟩
      · have hin := (hall c hc).mpr (Or.inr ⟨hlo, hhi⟩)
        exact ⟨c, hin.1, hin.2, hc, rfl⟩
    · rintro ⟨c, hlo, hhi, hc, rfl⟩
      rcases (hall c hc).mp ⟨hlo, hhi⟩ with ⟨hlo, hhi⟩ | ⟨hlo, hhi⟩
      · exact Or.inl ⟨c, hlo, hhi, hc, rfl⟩
      · exact Or.inr ⟨c, hlo, hhi, hc, rfl⟩
  ascending := by
    rw [pairwise_append]
    refine ⟨h.ascending, h'.ascending, ?_⟩
    intro seq hseq seq' hseq' c c' hc hc' hmatches hmatches'
    have hle := (h.bounds hseq hc hmatches).2
    have hge := (h'.bounds hseq' hc' hmatches').1
    omega

end Splits

/-- A range of one encoded length, free of surrogates and aligned, is one sequence. -/
theorem splits_leaf (hle : lo ≤ hi) (hhi : hi ≤ 0x10FFFF) (hlen : encodedLen lo = encodedLen hi)
    (hscalar : ∀ c, lo ≤ c → c ≤ hi → Scalar c) (halign : Aligned (encodedLen lo - 1) lo hi) :
    Splits lo hi [(encode lo).zip (encode hi)] where
  encodes := by
    intro bytes
    have hmid : ∀ c, lo ≤ c → c ≤ hi → encodedLen c = encodedLen lo := by
      intro c hlo hhi
      have hup := encodedLen_mono hlo
      have hdown := encodedLen_mono hhi
      omega
    rw [encode_eq_code (le_trans hle hhi), encode_eq_code hhi, ← hlen]
    have hlead := lead_lt hhi
    rw [← hlen] at hlead
    have hcode := matches_code hle halign hlead bytes
    constructor
    · rintro ⟨seq, hseq, hmatches⟩
      cases mem_singleton.mp hseq
      obtain ⟨c, hlo, hchi, rfl⟩ := hcode.mp hmatches
      refine ⟨c, hlo, hchi, hscalar c hlo hchi, ?_⟩
      rw [encode_eq_code (le_trans hchi hhi), hmid c hlo hchi]
    · rintro ⟨c, hlo, hchi, -, rfl⟩
      refine ⟨_, mem_singleton_self _, hcode.mpr ⟨c, hlo, hchi, ?_⟩⟩
      rw [encode_eq_code (le_trans hchi hhi), hmid c hlo hchi]
  ascending := pairwise_singleton _ _

/-- No split is asked for at the `i`th byte where it is aligned. -/
theorem aligned_of_blockSplit {i : Nat} (hlo : lo ≤ 0x10FFFF) (hhi : hi ≤ 0x10FFFF)
    (h : blockSplit lo hi i = none) :
    lo / 64 ^ i = hi / 64 ^ i ∨ (lo % 64 ^ i = 0 ∧ hi % 64 ^ i = 64 ^ i - 1) := by
  unfold blockSplit at h
  dsimp only at h
  rw [and_not_low (by omega), and_not_low (by omega), and_low, and_low, low_eq] at h
  by_cases hsame : lo / 64 ^ i = hi / 64 ^ i
  · exact Or.inl hsame
  · have hpos : 0 < 64 ^ i := Nat.pow_pos (by decide)
    rw [if_pos (fun heq => hsame (Nat.eq_of_mul_eq_mul_right hpos heq))] at h
    by_cases hzero : lo % 64 ^ i = 0
    · rw [if_neg (not_not.mpr hzero)] at h
      by_cases hfull : hi % 64 ^ i = 64 ^ i - 1
      · exact Or.inr ⟨hzero, hfull⟩
      · rw [if_pos hfull] at h
        cases h
    · rw [if_pos hzero] at h
      cases h

/-- What is asked for instead are two ranges that follow each other, each shorter. -/
theorem blockSplit_some {i : Nat} {first second : Nat × Nat} (hle : lo ≤ hi)
    (hhi : hi ≤ 0x10FFFF) (h : blockSplit lo hi i = some (first, second)) :
    first.1 = lo ∧ second.2 = hi ∧ second.1 = first.2 + 1 ∧ lo ≤ first.2 ∧ first.2 < hi := by
  unfold blockSplit at h
  dsimp only at h
  rw [and_not_low (by omega), and_not_low (by omega), and_low, and_low, or_low, low_eq] at h
  have hpos : 0 < 64 ^ i := Nat.pow_pos (by decide)
  have hlo' := Nat.div_add_mod' lo (64 ^ i)
  have hhi' := Nat.div_add_mod' hi (64 ^ i)
  have hmod := Nat.mod_lt lo hpos
  have hdiv : lo / 64 ^ i ≤ hi / 64 ^ i := Nat.div_le_div_right hle
  split at h
  · rename_i hne
    have hlt : lo / 64 ^ i < hi / 64 ^ i := by
      rcases Nat.lt_or_eq_of_le hdiv with hlt | heq
      · exact hlt
      · exact absurd (by rw [heq]) hne
    have hblock : lo / 64 ^ i * 64 ^ i + 64 ^ i ≤ hi / 64 ^ i * 64 ^ i := by
      rw [← Nat.succ_mul]
      exact Nat.mul_le_mul_right _ hlt
    split at h
    · cases h
      refine ⟨rfl, rfl, rfl, ?_, ?_⟩ <;> dsimp only <;> omega
    · split at h
      · cases h
        refine ⟨rfl, rfl, ?_, ?_, ?_⟩ <;> dsimp only <;> omega
      · cases h
  · cases h

/-- Where the encoded length does not change, no top is between. -/
theorem encodedLen_eq (hle : lo ≤ hi)
    (h : [0x7F, 0x7FF, 0xFFFF].find? (fun top => decide (lo ≤ top) && decide (hi > top)) = none) :
    encodedLen lo = encodedLen hi := by
  have h1 := List.find?_eq_none.mp h 0x7F (by simp)
  have h2 := List.find?_eq_none.mp h 0x7FF (by simp)
  have h3 := List.find?_eq_none.mp h 0xFFFF (by simp)
  simp only [Bool.and_eq_true, decide_eq_true_eq] at h1 h2 h3
  unfold encodedLen
  split_ifs <;> omega

/-- With any fuel above the range's length the same sequences are found. -/
theorem sequences_splits (fuel : Nat) : ∀ lo hi, hi ≤ 0x10FFFF → hi - lo < fuel →
    ∃ seqs, (∀ more, fuel ≤ more → ∀ out, sequences more lo hi out = some (out ++ seqs)) ∧
      Splits lo hi seqs := by
  induction fuel with
  | zero =>
    intro lo hi _ hfuel
    cases hfuel
  | succ fuel ih =>
    intro lo hi hhi hfuel
    -- Only fuel above what is left is ever spent.
    suffices h : ∃ seqs, (∀ more, fuel ≤ more → ∀ out,
        sequences (more + 1) lo hi out = some (out ++ seqs)) ∧ Splits lo hi seqs by
      obtain ⟨seqs, hseqs, hsplits⟩ := h
      refine ⟨seqs, ?_, hsplits⟩
      intro more hmore
      obtain ⟨more, rfl⟩ := Nat.exists_eq_add_of_lt (Nat.lt_of_lt_of_le (Nat.succ_pos fuel) hmore)
      rw [Nat.zero_add] at hmore ⊢
      exact hseqs more (by omega)
    by_cases hgt : lo > hi
    · refine ⟨[], ?_, Splits.empty fun c _ hin => by omega⟩
      intro more _ out
      rw [sequences, if_pos hgt, append_nil]
    by_cases hsurrogate : lo ≤ 0xDFFF ∧ hi ≥ 0xD800
    · have hbelow : ∃ seqs, (∀ more, fuel ≤ more → ∀ out,
          (if lo < 0xD800 then sequences more lo 0xD7FF out else some out) =
            some (out ++ seqs)) ∧ Splits lo 0xD7FF seqs := by
        by_cases hlo : lo < 0xD800
        · simp only [if_pos hlo]
          exact ih lo 0xD7FF (by omega) (by omega)
        · simp only [if_neg hlo]
          exact ⟨[], fun _ _ out => by rw [append_nil], Splits.empty fun c _ hin => by omega⟩
      have habove : ∃ seqs, (∀ more, fuel ≤ more → ∀ out,
          (if hi > 0xDFFF then sequences more 0xE000 hi out else some out) =
            some (out ++ seqs)) ∧ Splits 0xE000 hi seqs := by
        by_cases hhi' : hi > 0xDFFF
        · simp only [if_pos hhi']
          exact ih 0xE000 hi hhi (by omega)
        · simp only [if_neg hhi']
          exact ⟨[], fun _ _ out => by rw [append_nil], Splits.empty fun c _ hin => by omega⟩
      obtain ⟨below, hbelow, hsplits⟩ := hbelow
      obtain ⟨above, habove, hsplits'⟩ := habove
      refine ⟨below ++ above, ?_, hsplits.append hsplits' (by omega) ?_⟩
      · intro more hmore out
        rw [sequences, if_neg hgt, if_pos hsurrogate, hbelow more hmore, Option.bind_some,
          habove more hmore, append_assoc]
      · intro c hc
        unfold Scalar Nat.isValidChar at hc
        omega
    · -- Two ranges that follow each other, each shorter.
      have hboth : ∀ mid, lo ≤ mid → mid < hi → ∃ seqs, (∀ more, fuel ≤ more → ∀ out,
            (sequences more lo mid out).bind (sequences more (mid + 1) hi) =
              some (out ++ seqs)) ∧ Splits lo hi seqs := by
        intro mid hlo hmid
        obtain ⟨first, hfirst, hsplits⟩ := ih lo mid (by omega) (by omega)
        obtain ⟨second, hsecond, hsplits'⟩ := ih (mid + 1) hi hhi (by omega)
        refine ⟨first ++ second, ?_, hsplits.append hsplits' (by omega) ?_⟩
        · intro more hmore out
          rw [hfirst more hmore, Option.bind_some, hsecond more hmore, append_assoc]
        · intro c hc
          omega
      simp only [sequences, if_neg hgt, if_neg hsurrogate]
      cases htop : [0x7F, 0x7FF, 0xFFFF].find? fun top => decide (lo ≤ top) && decide
        (hi > top) with
      | some top =>
        have hin := List.find?_some htop
        simp only [Bool.and_eq_true, decide_eq_true_eq] at hin
        exact hboth top hin.1 hin.2
      | none =>
        cases hblock : (List.range' 1 (encodedLen lo - 1)).findSome? (blockSplit lo hi) with
        | some split =>
          obtain ⟨i, -, hsplit⟩ := exists_of_findSome?_eq_some hblock
          obtain ⟨hfirst, hsecond, hnext, hlo, hmid⟩ :=
            @blockSplit_some lo hi i split.1 split.2 (by omega) hhi hsplit
          dsimp only
          rw [hfirst, hsecond, hnext]
          exact hboth split.1.2 hlo hmid
        | none =>
          refine ⟨_, fun _ _ out => rfl, splits_leaf (by omega) hhi
            (encodedLen_eq (by omega) htop) ?_ ?_⟩
          · intro c hlo hchi
            unfold Scalar Nat.isValidChar
            omega
          · intro i hi1 hik
            refine aligned_of_blockSplit (by omega) hhi
              (List.findSome?_eq_none_iff.mp hblock i ?_)
            rw [mem_range'_1]
            omega

end Sequences

/-- The sequences of a range are found, each byte string that matches one is the UTF-8
encoding of a scalar value in the range and each of these matches one, none matches two,
and they ascend. -/
theorem sequences_exact (lo hi : Nat) (hhi : hi ≤ 0x10FFFF) :
    ∃ seqs, (∀ out fuel, hi - lo < fuel → sequences fuel lo hi out = some (out ++ seqs)) ∧
      (∀ bytes, (∃ seq ∈ seqs, Matches seq bytes) ↔
        ∃ c : Char, lo ≤ c.toNat ∧ c.toNat ≤ hi ∧ bytes = String.utf8EncodeChar c) ∧
      (seqs.Pairwise fun seq seq' => ∀ bytes, ¬ (Matches seq bytes ∧ Matches seq' bytes)) ∧
      seqs.Pairwise fun seq seq' => ∀ c c' : Char, Matches seq (String.utf8EncodeChar c) →
        Matches seq' (String.utf8EncodeChar c') → c < c' := by
  obtain ⟨seqs, hseqs, hsplits⟩ := sequences_splits (hi - lo + 1) lo hi hhi (by omega)
  refine ⟨seqs, ?_, ?_, ?_, ?_⟩
  · intro out fuel hfuel
    exact hseqs fuel hfuel out
  · intro bytes
    rw [hsplits.encodes]
    constructor
    · rintro ⟨c, hc, hc', hscalar, rfl⟩
      have htoNat : (Char.ofNatAux c hscalar).toNat = c := rfl
      refine ⟨Char.ofNatAux c hscalar, ?_, ?_, ?_⟩
      · rwa [htoNat]
      · rwa [htoNat]
      · rw [← encode_toNat, htoNat]
    · rintro ⟨c, hc, hc', rfl⟩
      exact ⟨c.toNat, hc, hc', c.valid, (encode_toNat c).symm⟩
  · refine hsplits.ascending.imp_of_mem ?_
    rintro seq seq' hseq - hlt bytes ⟨hmatches, hmatches'⟩
    obtain ⟨c, -, -, hscalar, rfl⟩ := (hsplits.encodes bytes).mp ⟨seq, hseq, hmatches⟩
    exact absurd (hlt c c hscalar hscalar hmatches hmatches') (Nat.lt_irrefl c)
  · refine hsplits.ascending.imp ?_
    intro seq seq' hlt c c' hmatches hmatches'
    rw [← encode_toNat] at hmatches hmatches'
    exact hlt c.toNat c'.toNat c.valid c'.valid hmatches hmatches'

theorem sequences_exact_all : ∃ seqs, sequences 0x110000 0 0x10FFFF [] = some seqs ∧
    ∀ c : Char, ∃ seq ∈ seqs, Matches seq (String.utf8EncodeChar c) := by
  obtain ⟨seqs, hseqs, hencodes, -⟩ := sequences_exact 0 0x10FFFF (Nat.le_refl _)
  refine ⟨seqs, hseqs [] 0x110000 (by decide), ?_⟩
  intro c
  exact (hencodes _).mpr ⟨c, Nat.zero_le _, toNat_le c, rfl⟩

/-- Over the surrogates nothing is encoded. -/
example : sequences 3 0xD7FF 0xE000 [] =
    some [[(0xED, 0xED), (0x9F, 0x9F), (0xBF, 0xBF)], [(0xEE, 0xEE), (0x80, 0x80),
      (0x80, 0x80)]] := by
  decide

end Wado.Re.Utf8
