/-
Taking a spelling apart: the references before it, the innermost name it is projected from
and the associated types behind, and the lists in either.
-/
import Wado.Mangle.Readable

namespace Wado.Mangle

open UniqueSplit List FqTypeName

variable {Module : Type} {defs : DefTable Module} {builtins : Text → Prop}

/-- A clause goes on only after a name that is no function type. -/
def Ends (name : FqTypeName Module) (text : Text) : Prop :=
  Closes text ∨ (name.head.isFunction = false ∧ ∃ rest, text = withText ++ '(' :: rest)

/-- Two names with what ends them after are told apart by the text. -/
def Cancels (defs : DefTable Module) (a b : FqTypeName Module) : Prop :=
  ∀ text text', Ends a text → Ends b text' →
    toMangled defs a ++ text = toMangled defs b ++ text' → a.normal = b.normal ∧ text = text'

/-- Every readable name is told apart from each of these. -/
def Settled (defs : DefTable Module) (builtins : Text → Prop) (names : List (FqTypeName Module)) :
    Prop :=
  ∀ a ∈ names, ∀ b, Readable defs builtins b → Cancels defs a b

theorem Follows.head {c : Char} {rest : Text} (h : Follows (c :: rest)) :
    c ∈ [',', ')', ']', '>', 'w', ':'] := by
  obtain ⟨run, tail, heq, hfollow⟩ := h
  cases hfollow with
  | closes hcloses =>
    cases heq
    have hin := hcloses.head
    simp only [mem_cons, not_mem_nil, or_false] at hin ⊢
    tauto
  | clause =>
    obtain ⟨rfl, -⟩ := List.cons.inj heq
    decide
  | member =>
    obtain ⟨rfl, -⟩ := List.cons.inj heq
    decide

variable {text : Text}

theorem Closes.follows (h : Closes text) : Follows text :=
  ⟨[], text, rfl, .closes h⟩

theorem Ends.follows {name : FqTypeName Module} (h : Ends name text) :
    Follows text := by
  rcases h with h | ⟨-, rest, rfl⟩
  · exact h.follows
  · exact ⟨withText, '(' :: rest, rfl, .clause rest⟩

theorem closes_cons {c : Char} {rest : Text} (h : c ∈ [',', ')', ']', '>']) : Closes (c :: rest) :=
  Or.inr ⟨c, rest, rfl, h⟩

variable (reference : List RefKind)

theorem foldl_pushRefPrefix (out : Text) :
    reference.foldl pushRefPrefix out = out ++ reference.flatMap refPrefix := by
  induction reference generalizing out with
  | nil => simp
  | cons kind reference ih =>
    rw [foldl_cons, ih, pushRefPrefix, flatMap_cons, append_assoc]

theorem toMangled_eq (head : TypeHead Module) (args : List (FqTypeName Module)) :
    toMangled defs (.mk reference head args) =
      reference.flatMap refPrefix ++ spellHead defs head (args.map (toMangled defs)) := by
  rw [toMangled, foldl_pushRefPrefix, nil_append, toMangledAll_eq_map]

/-- A text no reference can be read off the front of. -/
structure Unreferenced (text : Text) : Prop where
  notShared : ∀ rest, text ≠ '&' :: rest
  notMut : ¬ ['m', 'u', 't', ' '] <+: text

/-- The references before a name are settled by the text. -/
theorem references_split : ∀ {reference reference' : List RefKind} {text text' : Text},
    Unreferenced text → Unreferenced text' →
    reference.flatMap refPrefix ++ text = reference'.flatMap refPrefix ++ text' →
    reference = reference' ∧ text = text'
  | [], [], _, _, _, _, h => ⟨rfl, h⟩
  | [], kind :: reference', text, text', htext, _, h => by
    cases kind with
    | shared => exact absurd h (htext.notShared _)
    | mut_ => exact absurd h (htext.notShared _)
  | kind :: reference, [], text, text', _, htext', h => by
    cases kind with
    | shared => exact absurd h.symm (htext'.notShared _)
    | mut_ => exact absurd h.symm (htext'.notShared _)
  | kind :: reference, kind' :: reference', text, text', htext, htext', h => by
    have hmut : ∀ {reference : List RefKind} {text rest : Text}, Unreferenced text →
        reference.flatMap refPrefix ++ text ≠ ['m', 'u', 't', ' '] ++ rest := by
      intro reference text rest htext heq
      cases reference with
      | nil => exact htext.notMut ⟨rest, heq.symm⟩
      | cons kind reference =>
        cases kind with
        | shared => exact absurd (List.cons.inj heq).1 (by decide)
        | mut_ => exact absurd (List.cons.inj heq).1 (by decide)
    rw [flatMap_cons, flatMap_cons, append_assoc, append_assoc] at h
    cases kind with
    | shared =>
      cases kind' with
      | shared =>
        obtain ⟨rfl, hrest⟩ := references_split htext htext' (List.cons.inj h).2
        exact ⟨rfl, hrest⟩
      | mut_ => exact absurd (List.cons.inj h).2 (hmut htext)
    | mut_ =>
      cases kind' with
      | shared => exact absurd (List.cons.inj h).2.symm (hmut htext')
      | mut_ =>
        have htail := append_cancel_left h
        obtain ⟨rfl, hrest⟩ := references_split htext htext' htail
        exact ⟨rfl, hrest⟩

/-- A prefix ends before a character it does not hold. -/
theorem prefix_run {letters run rest : Text} (h : letters <+: run ++ rest)
    (hrest : ∀ c tail, rest = c :: tail → c ∉ letters) : letters <+: run := by
  induction letters generalizing run with
  | nil => exact nil_prefix
  | cons letter letters ih =>
    obtain ⟨tail, htail⟩ := h
    cases run with
    | nil =>
      cases rest with
      | nil => cases htail
      | cons c more =>
        obtain ⟨rfl, -⟩ := List.cons.inj htail
        exact absurd (mem_cons_self ..) (hrest _ more rfl)
    | cons c run =>
      obtain ⟨rfl, hmore⟩ := List.cons.inj htail
      rw [prefix_cons_inj]
      apply ih ⟨tail, hmore⟩
      intro d more hd hin
      exact hrest d more hd (mem_cons_of_mem _ hin)

/-- A run without blanks, then a text that opens with no letter of `mut`, is no `mut`. -/
theorem notMut_append {run rest : Text} (hrun : ∀ c ∈ run, c ≠ ' ')
    (hrest : ∀ c tail, rest = c :: tail → c ∉ ['m', 'u', 't', ' ']) :
    ¬ ['m', 'u', 't', ' '] <+: run ++ rest := by
  intro h
  exact hrun ' ' ((prefix_run h hrest).subset (by decide)) rfl

/-- Nor is a module before the mark behind it. -/
theorem notMut_module {m rest : Text} (h : ¬ ['m', 'u', 't', ' '] <+: m) :
    ¬ ['m', 'u', 't', ' '] <+: m ++ '/' :: rest := by
  intro hstarts
  apply h (prefix_run hstarts ?_)
  rintro c tail heq
  cases heq
  decide

theorem mangleArgs_map (names : List (FqTypeName Module)) :
    mangleArgs (names.map (toMangled defs)) =
      if names = [] then [] else '<' :: (join (names.map (toMangled defs)) ++ ['>']) := by
  cases names with
  | nil => rfl
  | cons name names => rfl

theorem mangleTraitArgs_map (names : List (FqTypeName Module)) :
    mangleTraitArgs (names.map (toMangled defs)) =
      if names = [] then [] else '[' :: (join (names.map (toMangled defs)) ++ [']']) := by
  cases names with
  | nil => rfl
  | cons name names => rfl

/-- What goes on after the arguments goes on after the word before them, or they do. -/
theorem goes_args (w : Word) (names : List (FqTypeName Module)) {text : Text}
    (h : Follows text) :
    ∃ run rest, mangleArgs (names.map (toMangled defs)) ++ text = run ++ rest ∧
      Goes w run rest := by
  rw [mangleArgs_map]
  split
  · obtain ⟨run, rest, heq, hfollow⟩ := h
    exact ⟨run, rest, heq, .follow hfollow⟩
  · exact ⟨[], _, rfl, .opens (by decide) _⟩

/-- The arguments and what follows them open with neither a body, an owner nor a bracket. -/
theorem args_head (names : List (FqTypeName Module)) (h : Follows text) {c : Char}
    {rest : Text} (heq : mangleArgs (names.map (toMangled defs)) ++ text = c :: rest) :
    c ∈ ['<', ',', ')', ']', '>', 'w', ':'] := by
  rw [mangleArgs_map] at heq
  split at heq
  · rw [nil_append] at heq
    subst heq
    exact mem_cons_of_mem _ h.head
  · obtain ⟨rfl, -⟩ := List.cons.inj heq
    decide

section Lists

variable (hopens : ∀ name : FqTypeName Module, Readable defs builtins name →
  ∃ c rest, toMangled defs name = c :: rest ∧ c ∉ [',', ')', ']', '>'])

include hopens

variable {names names' : List (FqTypeName Module)}

/-- A list of names closed by a bracket is settled by the text. -/
theorem names_split {close : Char} (hclose : close ∈ [')', ']', '>']) {rest rest' : Text}
    (hsettled : Settled defs builtins names) (hnames : ∀ name ∈ names, Readable defs builtins name)
    (hnames' : ∀ name ∈ names', Readable defs builtins name)
    (h : join (names.map (toMangled defs)) ++ close :: rest =
      join (names'.map (toMangled defs)) ++ close :: rest') :
    names.map normal = names'.map normal ∧ rest = rest' := by
  have hne : ',' ≠ close := by
    rintro rfl
    exact absurd hclose (by decide)
  have hends : ∀ {c : Char}, c = ',' ∨ c = close → c ∈ [',', ')', ']', '>'] := by
    rintro c (rfl | rfl)
    · exact mem_cons_self ..
    · exact mem_cons_of_mem _ hclose
  apply listed_split hne _ _ h
  · intro name hname
    obtain ⟨c, tail, heq, hc⟩ := hopens name (hname.elim (hnames name) (hnames' name))
    refine ⟨c, tail, heq, ?_⟩
    rintro rfl
    exact hc (mem_cons_of_mem _ hclose)
  · intro a ha b hb c d rest rest' hc hd hab
    exact hsettled a ha b (hnames' b hb) _ _ (Or.inl (closes_cons (hends hc)))
      (Or.inl (closes_cons (hends hd))) hab

theorem args_split {text text' : Text} (hsettled : Settled defs builtins names)
    (hnames : ∀ name ∈ names, Readable defs builtins name)
    (hnames' : ∀ name ∈ names', Readable defs builtins name)
    (htext : Follows text) (htext' : Follows text')
    (h : mangleArgs (names.map (toMangled defs)) ++ text =
      mangleArgs (names'.map (toMangled defs)) ++ text') :
    names.map normal = names'.map normal ∧ text = text' := by
  have hopen : ∀ {text rest : Text}, Follows text → text ≠ '<' :: rest := by
    rintro text rest htext rfl
    exact absurd htext.head (by decide)
  rw [mangleArgs_map, mangleArgs_map] at h
  split at h <;> split at h
  · rename_i hnil hnil'
    subst hnil hnil'
    exact ⟨rfl, h⟩
  · exact absurd h (hopen htext)
  · exact absurd h.symm (hopen htext')
  · rw [cons_append, cons_append, append_assoc, append_assoc] at h
    have hlists := (List.cons.inj h).2
    exact names_split hopens (by decide) hsettled hnames hnames' hlists

theorem traitArgs_split {text text' : Text} (hsettled : Settled defs builtins names)
    (hnames : ∀ name ∈ names, Readable defs builtins name)
    (hnames' : ∀ name ∈ names', Readable defs builtins name)
    (htext : ∀ rest, text ≠ '[' :: rest) (htext' : ∀ rest, text' ≠ '[' :: rest)
    (h : mangleTraitArgs (names.map (toMangled defs)) ++ text =
      mangleTraitArgs (names'.map (toMangled defs)) ++ text') :
    names.map normal = names'.map normal ∧ text = text' := by
  rw [mangleTraitArgs_map, mangleTraitArgs_map] at h
  split at h <;> split at h
  · rename_i hnil hnil'
    subst hnil hnil'
    exact ⟨rfl, h⟩
  · exact absurd h (htext _)
  · exact absurd h.symm (htext' _)
  · rw [cons_append, cons_append, append_assoc, append_assoc] at h
    have hlists := (List.cons.inj h).2
    exact names_split hopens (by decide) hsettled hnames hnames' hlists

end Lists

end Wado.Mangle
