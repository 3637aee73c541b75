/-
The well-formed items of RFC 8949, as a grammar over bytes, and the readers of
heads under tags, of string bodies and of items that accept exactly it.
-/
import Wado.Cbor.HeadBytes
import Wado.Cbor.Scalar

namespace Wado.Cbor

open ExceptSteps CborDeserializer List Option

/-- The encodings of a head under tags that `passes` lets pass. -/
inductive Untagged (passes : Nat → Bool) : Head → List UInt8 → Prop where
  | head {head : Head} {bytes : List UInt8} (hbytes : HeadBytes head bytes)
      (hstop : ¬ (head.major = majorTag ∧ passes head.arg)) : Untagged passes head bytes
  | tag {tag head : Head} {bytes bytes' : List UInt8} (hbytes : HeadBytes tag bytes)
      (hmajor : tag.major = majorTag) (hpasses : passes tag.arg)
      (hrest : Untagged passes head bytes') : Untagged passes head (bytes ++ bytes')

/-- The chunks of an indefinite string of a major type: what they hold, and their
bytes. -/
inductive Chunks (major : Nat) : List (List UInt8) → List UInt8 → Prop where
  | nil : Chunks major [] []
  | cons {head : Head} {bytes chunk bytes' : List UInt8} {chunks : List (List UInt8)}
      (hbytes : HeadBytes head bytes) (hmajor : head.major = major)
      (hdefinite : head.indef = false) (hlength : chunk.length = head.arg)
      (hrest : Chunks major chunks bytes') :
      Chunks major (chunk :: chunks) (bytes ++ chunk ++ bytes')

/-- The body of a string after its head: the chunks it holds, and its bytes. -/
inductive StringBody (major arg : Nat) : Bool → List (List UInt8) → List UInt8 → Prop where
  | definite {body : List UInt8} (hlength : body.length = arg) :
      StringBody major arg false [body] body
  | chunked {chunks : List (List UInt8)} {bytes : List UInt8}
      (hchunks : Chunks major chunks bytes) :
      StringBody major arg true chunks (bytes ++ [breakByte])

/-- What ends a container's entries. -/
def closing (indef : Bool) : List UInt8 := if indef then [breakByte] else []

/-- One level deeper, as an `i32`. -/
def level (depth : Int) : Int := (depth + 1 + 2 ^ 31) % 2 ^ 32 - 2 ^ 31

/-- The items that start at a level and nest to `maxDepth` at most. -/
inductive Item (maxDepth : Int) : Int → List UInt8 → Prop where
  | int {depth : Int} {head : Head} {tags : List UInt8} (htags : Untagged (fun _ => true) head tags)
      (hmajor : head.major = majorUint ∨ head.major = majorNint) : Item maxDepth depth tags
  | simple {depth : Int} {head : Head} {tags : List UInt8}
      (htags : Untagged (fun _ => true) head tags) (hmajor : head.major = majorSimple)
      (hdefinite : head.indef = false) : Item maxDepth depth tags
  | string {depth : Int} {head : Head} {tags body : List UInt8} {chunks : List (List UInt8)}
      (htags : Untagged (fun _ => true) head tags)
      (hmajor : head.major = majorBytes ∨ head.major = majorText)
      (hbody : StringBody head.major head.arg head.indef chunks body) :
      Item maxDepth depth (tags ++ body)
  | array {depth : Int} {head : Head} {tags : List UInt8} {elems : List (List UInt8)}
      (htags : Untagged (fun _ => true) head tags) (hmajor : head.major = majorArray)
      (hlevel : level depth ≤ maxDepth) (hcount : head.indef = false → elems.length = head.arg)
      (helems : ∀ elem ∈ elems, Item maxDepth (level depth) elem) :
      Item maxDepth depth (tags ++ (elems.flatten ++ closing head.indef))
  | map {depth : Int} {head : Head} {tags : List UInt8} {entries : List (List UInt8 × List UInt8)}
      (htags : Untagged (fun _ => true) head tags) (hmajor : head.major = majorMap)
      (hlevel : level depth ≤ maxDepth) (hcount : head.indef = false → entries.length = head.arg)
      (hkeys : ∀ entry ∈ entries, Item maxDepth (level depth) entry.1)
      (hvalues : ∀ entry ∈ entries, Item maxDepth (level depth) entry.2) :
      Item maxDepth depth
        (tags ++ ((entries.flatMap fun entry => entry.1 ++ entry.2) ++ closing head.indef))

variable {passes : Nat → Bool} {head : Head} {bytes : List UInt8}

section

variable (h : Untagged passes head bytes)
include h

theorem Untagged.length_pos : 0 < bytes.length := by
  cases h with
  | head hbytes hstop => exact hbytes.length_pos
  | tag hbytes hmajor hpasses hrest =>
    rw [length_append]
    exact Nat.lt_add_right _ hbytes.length_pos

/-- A head that some tags pass to is reached through all tags. -/
theorem Untagged.all (hmajor : head.major ≠ majorTag) :
    Untagged (fun _ => true) head bytes := by
  induction h with
  | head hbytes hstop => exact .head hbytes fun htag => hmajor htag.1
  | tag hbytes htag hpasses hrest ih => exact .tag hbytes htag rfl (ih hmajor)

theorem Untagged.major_lt : head.major < 8 := by
  induction h with
  | head hbytes hstop => exact hbytes.major_lt
  | tag hbytes hmajor hpasses hrest ih => exact ih

theorem Untagged.arg_lt : head.arg < 2 ^ 64 := by
  induction h with
  | head hbytes hstop => exact hbytes.arg_lt
  | tag hbytes hmajor hpasses hrest ih => exact ih

/-- A head whose additional information is not 31 is definite. -/
theorem Untagged.definite_of_ai (hai : head.ai ≠ 31) : head.indef = false := by
  induction h with
  | head hbytes hstop =>
    cases hbytes with
    | inline => rfl
    | sized => rfl
    | indefinite => exact absurd rfl hai
  | tag hbytes hmajor hpasses hrest ih => exact ih hai

end

theorem Untagged.major_ne_tag
    (h : Untagged (fun _ => true) head bytes) : head.major ≠ majorTag := by
  induction h with
  | head hbytes hstop => exact fun hmajor => hstop ⟨hmajor, rfl⟩
  | tag hbytes hmajor hpasses hrest ih => exact ih

variable {b : UInt8}

theorem HeadBytes.first_ne_break
    (h : HeadBytes head (b :: bytes)) (hno : ¬ (head.major = majorSimple ∧ head.indef = true)) :
    b ≠ breakByte := by
  intro hbreak
  have hsplit (major ai : Nat) (hmajor : major < 8) (hai : ai < 32)
      (hb : UInt8.ofNat (major * 32 + ai) = breakByte) : major = 7 ∧ ai = 31 := by
    obtain ⟨hhigh, hlow⟩ := initialByte_split major ai hmajor hai
    rw [hb] at hhigh hlow
    exact ⟨hhigh.symm, hlow.symm⟩
  cases h with
  | inline major arg hmajor harg =>
    have := (hsplit major arg hmajor (by omega) hbreak).2
    omega
  | sized major ai bytes hmajor hai hai' hlength =>
    have := (hsplit major ai hmajor (by omega) hbreak).2
    omega
  | indefinite major hmajor hsized =>
    exact hno ⟨(hsplit major 31 hmajor (by omega) hbreak).1, rfl⟩

namespace CborDeserializer

variable {fuel : Nat} {self s : CborDeserializer}

theorem untagged_sound (h : untagged passes fuel self = .ok (head, s)) :
    ∃ bytes next, self.rest = bytes ++ next ∧ Untagged passes head bytes ∧
      s = self.after bytes.length := by
  induction fuel generalizing self with
  | zero => cases h
  | succ fuel ih =>
    obtain ⟨⟨first, s'⟩, hread, h⟩ := bind_eq_ok.mp h
    obtain ⟨bytes, next, hrest, hbytes, rfl⟩ := readHead_eq_ok.mp hread
    dsimp only at h
    split_ifs at h with htag
    · obtain ⟨bytes', next', hrest', htags, rfl⟩ := ih h
      rw [rest_after_append hrest] at hrest'
      refine ⟨bytes ++ bytes', next', ?_, .tag hbytes htag.1 htag.2 htags, ?_⟩
      · rw [hrest, hrest', append_assoc]
      · rw [after_after, length_append]
    · cases h
      exact ⟨bytes, next, hrest, .head hbytes htag, rfl⟩

variable {bytes next : List UInt8} {self : CborDeserializer}

theorem untagged_complete (h : Untagged passes head bytes)
    (hrest : self.rest = bytes ++ next) (hfuel : bytes.length ≤ fuel) :
    untagged passes fuel self = .ok (head, self.after bytes.length) := by
  induction h generalizing fuel self with
  | head hbytes hstop =>
    cases fuel with
    | zero => exact absurd hbytes.length_pos (by omega)
    | succ fuel =>
      rw [untagged, bind_of_eq_ok (readHead_eq_ok.mpr ⟨_, next, hrest, hbytes, rfl⟩)]
      exact if_neg hstop
  | tag hbytes hmajor hpasses htags ih =>
    rename_i tag head bytes bytes'
    cases fuel with
    | zero => exact absurd hbytes.length_pos (by rw [length_append] at hfuel; omega)
    | succ fuel =>
      rw [append_assoc] at hrest
      have hfuel' : bytes'.length ≤ fuel := by
        have hpos := hbytes.length_pos
        rw [length_append] at hfuel
        omega
      have hnext := ih (rest_after_append hrest) hfuel'
      rw [untagged, bind_of_eq_ok (readHead_eq_ok.mpr ⟨_, _, hrest, hbytes, rfl⟩)]
      dsimp only
      rw [if_pos ⟨hmajor, hpasses⟩, hnext, after_after, length_append]

theorem readUntagged_eq_ok :
    self.readUntagged passes = .ok (head, s) ↔
      ∃ bytes next, self.rest = bytes ++ next ∧ Untagged passes head bytes ∧
        s = self.after bytes.length := by
  constructor
  · exact untagged_sound
  · rintro ⟨bytes, next, hrest, htags, rfl⟩
    apply untagged_complete htags hrest
    rw [hrest, length_append]
    omega

variable {next : List UInt8}

theorem peekByte_of_rest (h : self.rest = b :: next) : self.peekByte = .ok b :=
  peekByte_eq_ok.mpr ⟨next, h⟩

/-- A definite head is read at once as the loop through tags reads it. -/
theorem readUntagged_of_definite (hrest : self.rest = b :: next)
    (hmajor : b.toNat >>> 5 ≠ majorTag) (hai : b.toNat &&& 0x1f ≤ ai8Byte) :
    self.readUntagged passes = (self.after 1).readArg (b.toNat &&& 0x1f) >>= fun arg =>
        .ok (⟨b.toNat >>> 5, b.toNat &&& 0x1f, arg.1, false⟩, arg.2) := by
  rw [readUntagged, untagged, readHead_of_definite hrest hai]
  cases (self.after 1).readArg (b.toNat &&& 0x1f) with
  | error e => rfl
  | ok arg =>
    show (if b.toNat >>> 5 = majorTag ∧ passes arg.1 then _ else _) = _
    rw [if_neg fun hboth => hmajor hboth.1]
    rfl

theorem readUntagged_of_nil
    (hrest : self.rest = []) : self.readUntagged passes = .error self.eof := by
  have hbyte : self.nextByte = .error self.eof := by rw [nextByte, hrest]
  rw [readUntagged, untagged, readHead, bind_of_eq_error hbyte]
  rfl

variable {chunks : List (List UInt8)}

section Chunks

variable {α : Type} {major : Nat} {take : α → List UInt8 → Option α}
  {chunk : α → Nat → CborDeserializer → Except DeserializeError (α × CborDeserializer)}

/-- What a reader of one chunk is to do: pass over its bytes, and take them in. -/
structure TakesChunks (take : α → List UInt8 → Option α)
    (chunk : α → Nat → CborDeserializer → Except DeserializeError (α × CborDeserializer)) :
    Prop where
  eq_ok {out out' : α} {len : Nat} {self s : CborDeserializer} :
    chunk out len self = .ok (out', s) ↔
      ∃ body next, self.rest = body ++ next ∧ body.length = len ∧ take out body = some out' ∧
        s = self.after len

variable {out out' : α}

section

variable (hchunk : TakesChunks take chunk)
include hchunk

theorem readChunks_sound (h : readChunks major chunk fuel out self = .ok (out', s)) :
    ∃ chunks bytes next, self.rest = bytes ++ breakByte :: next ∧ Chunks major chunks bytes ∧
      chunks.foldlM take out = some out' ∧ s = self.after (bytes.length + 1) := by
  induction fuel generalizing out self with
  | zero => cases h
  | succ fuel ih =>
    obtain ⟨b, hpeek, h⟩ := bind_eq_ok.mp h
    split_ifs at h with hbreak
    · cases h
      obtain ⟨next, hrest⟩ := peekByte_eq_ok.mp hpeek
      rw [hbreak] at hrest
      exact ⟨[], [], next, hrest, .nil, rfl, rfl⟩
    · obtain ⟨⟨head, s₁⟩, hhead, h⟩ := bind_eq_ok.mp h
      dsimp only at h
      split_ifs at h with hno
      obtain ⟨⟨out₁, s₂⟩, htake, h⟩ := bind_eq_ok.mp h
      obtain ⟨hmajor, hdefinite⟩ := not_or.mp hno
      obtain ⟨bytes, next, hrest, hbytes, rfl⟩ := readHead_eq_ok.mp hhead
      obtain ⟨body, next₁, hrest₁, hlength, hout, rfl⟩ := hchunk.eq_ok.mp htake
      obtain ⟨chunks, bytes', next', hrest', hchunks, hfold, rfl⟩ := ih h
      rw [rest_after_append hrest] at hrest₁
      have hboth : self.rest = (bytes ++ body) ++ next₁ := by
        rw [hrest, hrest₁, append_assoc]
      rw [after_after, ← hlength, ← length_append, rest_after_append hboth] at hrest'
      refine ⟨body :: chunks, bytes ++ body ++ bytes', next', ?_, ?_, ?_, ?_⟩
      · rw [hrest, hrest₁, hrest']
        simp only [append_assoc]
      · exact .cons hbytes (not_not.mp hmajor) (Bool.eq_false_of_not_eq_true hdefinite) hlength
          hchunks
      · rw [foldlM_cons, hout]
        exact hfold
      · rw [after_after, after_after, ← hlength]
        simp only [length_append, Nat.add_assoc]

theorem readChunks_complete (h : Chunks major chunks bytes)
    (hrest : self.rest = bytes ++ breakByte :: next)
    (hfuel : bytes.length < fuel) (hfold : chunks.foldlM take out = some out') :
    readChunks major chunk fuel out self = .ok (out', self.after (bytes.length + 1)) := by
  induction h generalizing fuel out self with
  | nil =>
    cases fuel with
    | zero => exact absurd hfuel (Nat.not_lt_zero _)
    | succ fuel =>
      cases hfold
      rw [readChunks, bind_of_eq_ok (peekByte_of_rest hrest), if_pos rfl]
      rfl
  | cons hbytes hmajor hdefinite hlength hchunks ih =>
    rename_i head bytes body bytes' chunks
    cases fuel with
    | zero => exact absurd hfuel (Nat.not_lt_zero _)
    | succ fuel =>
      obtain ⟨b, tail, rfl⟩ := exists_cons_of_length_pos hbytes.length_pos
      have hfirst : b ≠ breakByte := hbytes.first_ne_break (by rw [hdefinite]; simp)
      rw [foldlM_cons] at hfold
      obtain ⟨out₁, htake, hfold⟩ := bind_eq_some_iff.mp hfold
      rw [append_assoc, append_assoc] at hrest
      have hread := readHead_eq_ok.mpr ⟨_, _, hrest, hbytes, rfl⟩
      have hbody := hchunk.eq_ok.mpr
        ⟨body, _, rest_after_append hrest, hlength, htake, rfl⟩
      have hrest' : ((self.after (b :: tail).length).after body.length).rest =
          bytes' ++ breakByte :: next :=
        rest_after_append (rest_after_append hrest)
      rw [hlength] at hrest'
      have hfuel' : bytes'.length < fuel := by
        simp only [length_append, length_cons] at hfuel
        omega
      have hnext := ih hrest' hfuel' hfold
      rw [readChunks, bind_of_eq_ok (peekByte_of_rest hrest), if_neg hfirst, bind_of_eq_ok hread]
      dsimp only
      rw [if_neg (by simp [hmajor, hdefinite]), bind_of_eq_ok hbody]
      dsimp only
      rw [hnext, after_after, after_after, ← hlength]
      simp only [length_append, Nat.add_assoc]

/-- The loop over the chunks of an indefinite string accepts chunks up to a break. -/
theorem readChunks_eq_ok :
    readChunks major chunk (self.rest.length + 1) out self = .ok (out', s) ↔
      ∃ chunks body next, self.rest = body ++ next ∧ StringBody major 0 true chunks body ∧
        chunks.foldlM take out = some out' ∧ s = self.after body.length := by
  constructor
  · intro h
    obtain ⟨chunks, bytes, next, hrest, hchunks, hfold, rfl⟩ := readChunks_sound hchunk h
    refine ⟨chunks, bytes ++ [breakByte], next, ?_, .chunked hchunks, hfold, ?_⟩
    · rw [hrest, append_assoc]
      rfl
    · rw [length_append]
      rfl
  · rintro ⟨chunks, body, next, hrest, hbody, hfold, rfl⟩
    cases hbody with
    | chunked hchunks =>
      rw [append_assoc] at hrest
      rw [length_append]
      apply readChunks_complete hchunk hchunks hrest _ hfold
      rw [hrest, length_append]
      omega

end

end Chunks

/-- An indefinite body does not depend on its head's argument. -/
theorem stringBody_indefinite {major arg arg' : Nat}
    {body : List UInt8} (h : StringBody major arg true chunks body) :
    StringBody major arg' true chunks body := by
  cases h with
  | chunked hchunks => exact .chunked hchunks

/-- Takes in a chunk of a text string. -/
def takeText (s : String) (body : List UInt8) : Option String :=
  (tryFromUtf8 body).map (s ++ ·)

variable {text : String}

theorem readDefiniteText_eq_ok {len : Nat} :
    self.readDefiniteText len = .ok (text, s) ↔
      ∃ body next, self.rest = body ++ next ∧ body.length = len ∧ tryFromUtf8 body = some text ∧
        s = self.after len := by
  unfold readDefiniteText
  by_cases hlen : len > self.rest.length
  · rw [if_pos hlen]
    constructor
    · intro h
      cases h
    · rintro ⟨body, next, hrest, hlength, _⟩
      rw [hrest, length_append] at hlen
      omega
  · rw [if_neg hlen]
    constructor
    · intro h
      cases htext : tryFromUtf8 (self.rest.take len) with
      | none =>
        rw [htext] at h
        cases h
      | some text' =>
        rw [htext] at h
        cases h
        refine ⟨_, _, (take_append_drop len self.rest).symm, ?_, htext, rfl⟩
        rw [length_take]
        omega
    · rintro ⟨body, next, hrest, rfl, htext, rfl⟩
      rw [hrest, take_left, htext]

theorem takesChunks_appendText : TakesChunks takeText appendText := by
  constructor
  intro text text' len self s
  constructor
  · intro h
    obtain ⟨⟨chunk, s'⟩, hread, h⟩ := bind_eq_ok.mp h
    obtain ⟨body, next, hrest, hlength, htext, rfl⟩ := readDefiniteText_eq_ok.mp hread
    cases h
    exact ⟨body, next, hrest, hlength, by rw [takeText, htext, map_some], rfl⟩
  · rintro ⟨body, next, hrest, hlength, htake, rfl⟩
    obtain ⟨chunk, htext, rfl⟩ := map_eq_some_iff.mp htake
    exact bind_of_eq_ok (readDefiniteText_eq_ok.mpr ⟨body, next, hrest, hlength, htext, rfl⟩)

variable {indef : Bool}

theorem readTextBody_eq_ok {arg : Nat} :
    self.readTextBody arg indef = .ok (text, s) ↔
      ∃ chunks body next, self.rest = body ++ next ∧ StringBody majorText arg indef chunks body ∧
        chunks.foldlM takeText "" = some text ∧ s = self.after body.length := by
  cases indef with
  | true =>
    show readChunks majorText appendText (self.rest.length + 1) "" self = _ ↔ _
    rw [readChunks_eq_ok takesChunks_appendText]
    constructor
    · rintro ⟨chunks, body, next, hrest, hbody, h⟩
      exact ⟨chunks, body, next, hrest, stringBody_indefinite hbody, h⟩
    · rintro ⟨chunks, body, next, hrest, hbody, h⟩
      exact ⟨chunks, body, next, hrest, stringBody_indefinite hbody, h⟩
  | false =>
    show self.readDefiniteText arg = _ ↔ _
    rw [readDefiniteText_eq_ok]
    constructor
    · rintro ⟨body, next, hrest, hlength, htext, rfl⟩
      refine ⟨[body], body, next, hrest, .definite hlength, ?_, by rw [hlength]⟩
      simp [takeText, htext]
    · rintro ⟨chunks, body, next, hrest, hbody, hfold, rfl⟩
      cases hbody with
      | definite hlength =>
        refine ⟨body, next, hrest, hlength, ?_, by rw [hlength]⟩
        simpa [takeText] using hfold

theorem appendBytes_eq_ok {out out' : List UInt8} {len : Nat} :
    appendBytes out len self = .ok (out', s) ↔
      ∃ body next, self.rest = body ++ next ∧ body.length = len ∧ some (out ++ body) = some out' ∧
        s = self.after len := by
  unfold appendBytes
  by_cases hlen : len > self.rest.length
  · rw [if_pos hlen]
    constructor
    · intro h
      cases h
    · rintro ⟨body, next, hrest, hlength, _⟩
      rw [hrest, length_append] at hlen
      omega
  · rw [if_neg hlen]
    constructor
    · intro h
      cases h
      refine ⟨_, _, (take_append_drop len self.rest).symm, ?_, rfl, rfl⟩
      rw [length_take]
      omega
    · rintro ⟨body, next, hrest, rfl, htake, rfl⟩
      cases htake
      rw [hrest, take_left]

theorem takesChunks_appendBytes : TakesChunks (fun out body => some (out ++ body)) appendBytes := by
  constructor
  intro out out' len self s
  exact appendBytes_eq_ok

theorem foldlM_append (chunks : List (List UInt8)) (out : List UInt8) :
    chunks.foldlM (fun out body => some (out ++ body)) out = some (out ++ chunks.flatten) := by
  induction chunks generalizing out with
  | nil => simp
  | cons chunk chunks ih =>
    rw [foldlM_cons]
    show chunks.foldlM _ (out ++ chunk) = _
    rw [ih, flatten_cons, append_assoc]

theorem readBytesBody_eq_ok {arg : Nat} :
    self.readBytesBody arg indef = .ok (bytes, s) ↔
      ∃ chunks body next, self.rest = body ++ next ∧ StringBody majorBytes arg indef chunks body ∧
        chunks.flatten = bytes ∧ s = self.after body.length := by
  cases indef with
  | true =>
    show readChunks majorBytes appendBytes (self.rest.length + 1) [] self = _ ↔ _
    rw [readChunks_eq_ok takesChunks_appendBytes]
    constructor
    · rintro ⟨chunks, body, next, hrest, hbody, hfold, rfl⟩
      rw [foldlM_append] at hfold
      exact ⟨chunks, body, next, hrest, stringBody_indefinite hbody, Option.some.inj hfold, rfl⟩
    · rintro ⟨chunks, body, next, hrest, hbody, rfl, rfl⟩
      exact ⟨chunks, body, next, hrest, stringBody_indefinite hbody, foldlM_append chunks [], rfl⟩
  | false =>
    show appendBytes [] arg self = _ ↔ _
    rw [appendBytes_eq_ok]
    constructor
    · rintro ⟨body, next, hrest, hlength, htake, rfl⟩
      refine ⟨[body], body, next, hrest, .definite hlength, ?_, by rw [hlength]⟩
      simpa using htake
    · rintro ⟨chunks, body, next, hrest, hbody, rfl, rfl⟩
      cases hbody with
      | definite hlength => exact ⟨body, next, hrest, hlength, by simp, by rw [hlength]⟩

end CborDeserializer

/-- Bytes that do not start as a break does. -/
def StartsItem (bytes : List UInt8) : Prop := ∃ b tail, bytes = b :: tail ∧ b ≠ breakByte

theorem Untagged.startsItem {tags : List UInt8}
    (h : Untagged passes head tags) (hno : ¬ (head.major = majorSimple ∧ head.indef = true))
    (next : List UInt8) : StartsItem (tags ++ next) := by
  cases h with
  | head hbytes hstop =>
    obtain ⟨b, tail, rfl⟩ := exists_cons_of_length_pos hbytes.length_pos
    exact ⟨b, tail ++ next, rfl, hbytes.first_ne_break hno⟩
  | tag hbytes hmajor hpasses hrest =>
    obtain ⟨b, tail, rfl⟩ := exists_cons_of_length_pos hbytes.length_pos
    refine ⟨b, _, by rw [cons_append, cons_append], hbytes.first_ne_break ?_⟩
    rw [hmajor]
    rintro ⟨h, _⟩
    cases h

variable {maxDepth depth : Int}

/-- An item does not start as a break does. -/
theorem Item.startsItem (h : Item maxDepth depth bytes) : StartsItem bytes := by
  have hne {major major' : Nat} (hmajor : major = major') (hmajor' : major' ≠ majorSimple)
      (indef : Bool) : ¬ (major = majorSimple ∧ indef = true) :=
    fun hboth => hmajor' (hmajor.symm.trans hboth.1)
  cases h with
  | int htags hmajor =>
    rw [← append_nil bytes]
    apply htags.startsItem _
    rcases hmajor with hmajor | hmajor
    · exact hne hmajor (by decide) _
    · exact hne hmajor (by decide) _
  | simple htags hmajor hdefinite =>
    rw [← append_nil bytes]
    apply htags.startsItem _
    rw [hdefinite]
    simp
  | string htags hmajor hbody =>
    apply htags.startsItem _
    rcases hmajor with hmajor | hmajor
    · exact hne hmajor (by decide) _
    · exact hne hmajor (by decide) _
  | array htags hmajor hlevel hcount helems =>
    exact htags.startsItem (hne hmajor (by decide) _) _
  | map htags hmajor hlevel hcount hkeys hvalues =>
    exact htags.startsItem (hne hmajor (by decide) _) _

end Wado.Cbor
