/-
A function type's effects, its return and its clause, told apart by the text.
-/
import Wado.Mangle.Projections

namespace Wado.Mangle

open UniqueSplit List

variable {Module : Type} {defs : DefTable Module} {builtins : Text → Prop}

section WellNamed

variable (hnamed : defs.WellNamed) (hmodules : ∀ module, ModuleText (defs.display module))

include hnamed hmodules

/-- The word an effect is spelled as. -/
def effectWord (defs : DefTable Module) : EffectRef Module → Word
  | .concrete head => .qualified (defs.display (defs.module head)) (defs.name head)
  | .undeclared name moduleSource => .qualified (defs.display moduleSource) name
  | .param name => .bare name
  | .var id => .bare ('$' :: 'e' :: decimal id)

omit hnamed hmodules in
theorem effectWord_text (effect : EffectRef Module) :
    (effectWord defs effect).text = defs.mangleEffectRef effect := by
  cases effect <;> simp [effectWord, Word.text, DefTable.mangleEffectRef, DefTable.effectNamespace]

theorem effectWord_readable {effect : EffectRef Module} (h : ReadableEffect defs effect) :
    (effectWord defs effect).Readable := by
  cases effect with
  | concrete head =>
    exact ⟨hmodules _, atom_of_isValidIdent (hnamed.identifiers head (Or.inr (Or.inr h)))⟩
  | undeclared name moduleSource => exact ⟨hmodules _, atom_of_isValidIdent h.1⟩
  | param name => exact atom_of_isValidIdent h
  | var id =>
    have hnumber := atom_decimal id
    have hmem : ∀ c, c ∈ '$' :: 'e' :: decimal id → (c = '$' ∨ c = 'e') ∨ c ∈ decimal id := by
      intro c hc
      simpa [or_assoc] using hc
    refine ⟨cons_ne_nil _ _, ?_, ?_, ?_⟩
    · intro c hc
      rcases hmem c hc with (rfl | rfl) | hc
      · decide
      · decide
      · exact hnumber.plain c hc
    · intro c hc
      rcases hmem c hc with (rfl | rfl) | hc
      · decide
      · decide
      · exact hnumber.unmarked c hc
    · intro c hc
      rcases hmem c hc with (rfl | rfl) | hc
      · decide
      · decide
      · exact hnumber.unspaced c hc

omit hmodules in
/-- Effects are one when they are spelled as one word. -/
theorem effect_ext {effect effect' : EffectRef Module} (h : ReadableEffect defs effect)
    (h' : ReadableEffect defs effect') (hword : effectWord defs effect = effectWord defs effect') :
    effect = effect' := by
  have hdollar : ∀ {name : Text} {rest : Text}, isValidIdent name = true → name ≠ '$' :: rest := by
    rintro name rest hname rfl
    have hin := (isIdentContinue_of_isValidIdent hname).2 '$' (mem_cons_self ..)
    exact absurd hin (by decide)
  cases effect with
  | concrete head =>
    cases effect' with
    | concrete head' =>
      obtain ⟨hmodule, hname⟩ := Word.qualified.inj hword
      have hlocal := hnamed.effects head h
      have hlocal' := hnamed.effects head' h'
      rw [hnamed.distinct head head' (Or.inr (Or.inr ⟨h, h'⟩))
        (hnamed.display_injective hmodule) hname (hlocal.trans hlocal'.symm) ?_]
      intro hfalse
      rw [hlocal] at hfalse
      cases hfalse
    | undeclared name' moduleSource' =>
      obtain ⟨hmodule, hname⟩ := Word.qualified.inj hword
      exact absurd ⟨hnamed.display_injective hmodule, hname⟩ (h'.2 head h)
    | param => cases hword
    | var => cases hword
  | undeclared name moduleSource =>
    cases effect' with
    | concrete head' =>
      obtain ⟨hmodule, hname⟩ := Word.qualified.inj hword
      exact absurd ⟨(hnamed.display_injective hmodule).symm, hname.symm⟩ (h.2 head' h')
    | undeclared name' moduleSource' =>
      obtain ⟨hmodule, rfl⟩ := Word.qualified.inj hword
      rw [hnamed.display_injective hmodule]
    | param => cases hword
    | var => cases hword
  | param name =>
    cases effect' with
    | concrete => cases hword
    | undeclared => cases hword
    | param name' =>
      cases hword
      rfl
    | var id => exact absurd (Word.bare.inj hword) (hdollar h)
  | var id =>
    cases effect' with
    | concrete => cases hword
    | undeclared => cases hword
    | param name' => exact absurd (Word.bare.inj hword).symm (hdollar h')
    | var id' =>
      have hnumbers := (List.cons.inj (List.cons.inj (Word.bare.inj hword)).2).2
      rw [decimal_injective hnumbers]

/-- A function type's clause. -/
def clauseText (defs : DefTable Module) (effects : List (EffectRef Module)) : Text :=
  if (effects.map defs.mangleEffectRef).isEmpty then [] else
    ['w', 'i', 't', 'h', '('] ++ join (effects.map defs.mangleEffectRef) ++ [')']

omit hnamed hmodules in
theorem ends_clause {name : FqTypeName Module} (hfunction : name.head.isFunction = false)
    (effects : List (EffectRef Module)) {text : Text} (htext : Closes text) :
    Ends name (clauseText defs effects ++ text) := by
  rw [clauseText]
  split
  · exact Or.inl htext
  · exact Or.inr ⟨hfunction, _, rfl⟩

variable {effects effects' : List (EffectRef Module)} {text text' : Text}

/-- A clause, and what ends the function type after it, is settled by the text. -/
theorem clause_split (heffects : ∀ effect ∈ effects, ReadableEffect defs effect)
    (heffects' : ∀ effect ∈ effects', ReadableEffect defs effect)
    (htext : Closes text) (htext' : Closes text')
    (h : clauseText defs effects ++ text = clauseText defs effects' ++ text') :
    effects = effects' ∧ text = text' := by
  have hopen : ∀ {text rest : Text}, Closes text → text ≠ 'w' :: rest := by
    rintro text rest htext rfl
    exact absurd htext.head (by decide)
  cases effects with
  | nil =>
    cases effects' with
    | nil => exact ⟨rfl, h⟩
    | cons effect' effects' => exact absurd h (hopen htext)
  | cons effect effects =>
    cases effects' with
    | nil => exact absurd h.symm (hopen htext')
    | cons effect' effects' =>
      have hlists : join ((effect :: effects).map defs.mangleEffectRef) ++ ')' :: text =
          join ((effect' :: effects').map defs.mangleEffectRef) ++ ')' :: text' := by
        simpa [clauseText] using h
      have hread : ∀ e, e ∈ effect :: effects ∨ e ∈ effect' :: effects' →
          ReadableEffect defs e := by
        rintro e (he | he)
        · exact heffects e he
        · exact heffects' e he
      have hopens : ∀ e, e ∈ effect :: effects ∨ e ∈ effect' :: effects' →
          ∃ c rest, defs.mangleEffectRef e = c :: rest ∧ c ≠ ')' := by
        intro e he
        obtain ⟨c, rest, heq, hplain⟩ :=
          Word.opens (effectWord_readable hnamed hmodules (hread e he))
        rw [effectWord_text] at heq
        refine ⟨c, rest, heq, ?_⟩
        rintro rfl
        exact absurd hplain (by decide)
      have htold : ∀ e ∈ effect :: effects, ∀ e' ∈ effect' :: effects',
          Told defs.mangleEffectRef id ',' ')' e e' := by
        intro e he e' he' c d rest rest' hc hd heq
        have hends : ∀ {c : Char} {rest : Text}, c = ',' ∨ c = ')' → Closes (c :: rest) := by
          rintro c rest (rfl | rfl)
          · exact closes_cons (by decide)
          · exact closes_cons (by decide)
        rw [← effectWord_text, ← effectWord_text] at heq
        obtain ⟨hwords, hafter⟩ := Word.split
          (effectWord_readable hnamed hmodules (hread e (Or.inl he)))
          (effectWord_readable hnamed hmodules (hread e' (Or.inr he')))
          (.follow (.closes (hends hc))) (.follow (.closes (hends hd))) heq
        exact ⟨effect_ext hnamed (hread e (Or.inl he)) (hread e' (Or.inr he')) hwords, hafter⟩
      obtain ⟨hmaps, hrest⟩ := listed_split (by decide) hopens htold hlists
      rw [map_id, map_id] at hmaps
      exact ⟨hmaps, hrest⟩

variable (hbuiltins : BuiltinNames builtins)

include hbuiltins

/-- A return's spelling, in parentheses where it is a function type. -/
def retText (defs : DefTable Module) (ret : FqTypeName Module) : Text :=
  if ret.returnIsFunction then ['('] ++ toMangled defs ret ++ [')'] else toMangled defs ret

omit hnamed hmodules hbuiltins in
theorem returnIsFunction_eq {ret : FqTypeName Module}
    (h : ret.head.isFunction = true → ret.reference = []) :
    ret.returnIsFunction = ret.head.isFunction := by
  rw [FqTypeName.returnIsFunction]
  cases hfunction : ret.head.isFunction with
  | false => rfl
  | true => rw [h hfunction]; rfl

omit hnamed hmodules hbuiltins in
/-- A function type behind no reference opens with its keyword. -/
theorem toMangled_function {ret : FqTypeName Module} (hfunction : ret.head.isFunction = true)
    (hreference : ret.reference = []) : ∃ rest, toMangled defs ret = 'f' :: rest := by
  obtain ⟨reference, head, args⟩ := ret
  obtain rfl : reference = [] := hreference
  cases head with
  | function isMut params ret effects =>
    rw [toMangled_eq]
    cases isMut
    · exact ⟨_, rfl⟩
    · exact ⟨_, rfl⟩
  | _ => cases hfunction

variable {ret ret' : FqTypeName Module}

/-- A return, and the clause and what ends the function type after it, are settled by the
text. -/
theorem ret_split (hret : Readable defs builtins ret) (hret' : Readable defs builtins ret')
    (hreference : ret.head.isFunction = true → ret.reference = [])
    (hreference' : ret'.head.isFunction = true → ret'.reference = [])
    (hcancels : Cancels defs ret ret') (htext : Closes text) (htext' : Closes text')
    (h : retText defs ret ++ (clauseText defs effects ++ text) =
      retText defs ret' ++ (clauseText defs effects' ++ text')) :
    ret.normal = ret'.normal ∧
      clauseText defs effects ++ text = clauseText defs effects' ++ text' := by
  rw [retText, retText, returnIsFunction_eq hreference, returnIsFunction_eq hreference'] at h
  cases hfunction : ret.head.isFunction with
  | true =>
    cases hfunction' : ret'.head.isFunction with
    | true =>
      rw [hfunction, hfunction', if_pos rfl, if_pos rfl] at h
      simp only [append_assoc, cons_append, nil_append] at h
      obtain ⟨hsame, hafter⟩ := hcancels _ _ (Or.inl (closes_cons (by decide)))
        (Or.inl (closes_cons (by decide))) (List.cons.inj h).2
      exact ⟨hsame, (List.cons.inj hafter).2⟩
    | false =>
      rw [hfunction, hfunction', if_pos rfl, if_neg (by decide)] at h
      obtain ⟨rest, hopens⟩ := @toMangled_function _ defs _ hfunction (hreference hfunction)
      rw [hopens] at h
      exact absurd h.symm (toMangled_ne_parenthesised hnamed hmodules hbuiltins hret' hfunction'
        (ends_clause hfunction' effects' htext').follows)
  | false =>
    cases hfunction' : ret'.head.isFunction with
    | true =>
      rw [hfunction, hfunction', if_neg (by decide), if_pos rfl] at h
      obtain ⟨rest, hopens⟩ := @toMangled_function _ defs _ hfunction' (hreference' hfunction')
      rw [hopens] at h
      exact absurd h (toMangled_ne_parenthesised hnamed hmodules hbuiltins hret hfunction
        (ends_clause hfunction effects htext).follows)
    | false =>
      rw [hfunction, hfunction', if_neg (by decide), if_neg (by decide)] at h
      exact hcancels _ _ (ends_clause hfunction effects htext)
        (ends_clause hfunction' effects' htext') h

/-- A function type is settled by the text. -/
theorem function_split {isMut isMut' : Bool} {params params' : List (FqTypeName Module)}
    (h : ReadableHead defs builtins (.function isMut params ret effects))
    (h' : ReadableHead defs builtins (.function isMut' params' ret' effects'))
    (hparams : Settled defs builtins params) (hret : Cancels defs ret ret') {args args' : List Text}
    (htext : Closes text) (htext' : Closes text')
    (heq : spellHead defs (.function isMut params ret effects) args ++ text =
      spellHead defs (.function isMut' params' ret' effects') args' ++ text') :
    TypeHead.normal (.function isMut params ret effects) =
      TypeHead.normal (.function isMut' params' ret' effects') ∧ text = text' := by
  rw [ReadableHead, readableAll_iff] at h h'
  obtain ⟨hreadParams, hreadRet, hreference, heffects⟩ := h
  obtain ⟨hreadParams', hreadRet', hreference', heffects'⟩ := h'
  have hspelled : ∀ (isMut : Bool) (params : List (FqTypeName Module)) (ret : FqTypeName Module)
      (effects : List (EffectRef Module)) (args : List Text) (text : Text),
      spellHead defs (.function isMut params ret effects) args ++ text =
        fnKeyword isMut ++ '(' :: (join (params.map (toMangled defs)) ++ ')' :: '-' :: '>' ::
          (retText defs ret ++ (clauseText defs effects ++ text))) := by
    intro isMut params ret effects args text
    rw [spellHead, mangleFnType, toMangledAll_eq_map, retText, clauseText]
    simp only [append_assoc, cons_append, nil_append]
  rw [hspelled, hspelled] at heq
  have hletters : ∀ isMut, ∀ c ∈ fnKeyword isMut, Plain c := by
    intro isMut
    cases isMut <;> exact plain_of_all (by decide)
  obtain ⟨hkeyword, hafter⟩ := run_split Plain (hletters isMut) (hletters isMut')
    (leaves_cons.mpr (by decide)) (leaves_cons.mpr (by decide)) heq
  have hisMut : isMut = isMut' := by
    cases isMut <;> cases isMut' <;> first | rfl | exact absurd hkeyword (by decide)
  obtain ⟨hnames, harrow⟩ := names_split (toMangled_opens hnamed hmodules hbuiltins) (by decide)
    hparams hreadParams hreadParams' (List.cons.inj hafter).2
  obtain ⟨hrets, hclauses⟩ := ret_split hnamed hmodules hbuiltins hreadRet hreadRet' hreference
    hreference' hret htext htext' (List.cons.inj (List.cons.inj harrow).2).2
  obtain ⟨hsame, hend⟩ := clause_split hnamed hmodules heffects heffects' htext htext' hclauses
  refine ⟨?_, hend⟩
  rw [TypeHead.normal, TypeHead.normal, normalAll_eq_map, normalAll_eq_map, hisMut, hnames, hrets,
    hsame]

end WellNamed

end Wado.Mangle
