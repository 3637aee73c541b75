/-
The innermost name of a spelling: a tuple, the unit type, or a word with what its head adds
and its arguments.
-/
import Wado.Mangle.Pieces

namespace Wado.Mangle

open UniqueSplit List

variable {Module : Type} {defs : DefTable Module} {builtins : Text → Prop}

/-- The word a binder's owner is spelled as. -/
def ownerWord (defs : DefTable Module) (owner : BinderOwner) : Word :=
  match owner.assoc with
  | none => .qualified (defs.display (defs.moduleOfSpace owner.id.space)) (decimal owner.id.local_)
  | some assoc =>
    .family (defs.display (defs.moduleOfSpace owner.id.space)) (decimal owner.id.local_) assoc

/-- The word a head is spelled as, for a head that is one. -/
def headWord (defs : DefTable Module) : TypeHead Module → Word
  | .declared head => .qualified (defs.display (defs.module head)) (defs.mangled head)
  | .shape module name => .qualified (defs.display module) (name.takeWhile (· != '\x7b'))
  | .paramBucket module name => .qualified (defs.display module) name
  | .builtin name => .bare name
  | .unresolved name => .bare name
  | .binder name _ => .bare name
  | .function .. => .bare []
  | .tuple => .bare []
  | .projection .. => .bare []

/-- What a head adds between its word and its arguments. -/
def headBody (defs : DefTable Module) : TypeHead Module → Text
  | .shape _ name => name.dropWhile (· != '\x7b')
  | .paramBucket _ _ => ['#', 'p', 'a', 'r', 'a', 'm']
  | .binder _ (some owner) => '#' :: (ownerWord defs owner).text
  | _ => []

/-- A head spelled as a word. -/
def TypeHead.isWord : TypeHead Module → Prop
  | .declared _ => True
  | .shape _ _ => True
  | .paramBucket _ _ => True
  | .builtin name => Atom name
  | .unresolved _ => False
  | .binder _ _ => True
  | .function .. => False
  | .tuple => False
  | .projection .. => False

theorem ownerWord_text (owner : BinderOwner) :
    (ownerWord defs owner).text = defs.ownerMangled owner := by
  unfold ownerWord DefTable.ownerMangled ownerSuffix
  cases owner.assoc with
  | none => simp [Word.text]
  | some assoc => simp [Word.text]

variable {head : TypeHead Module}

theorem spellHead_word (hword : head.isWord) (args : List Text) :
    spellHead defs head args =
      (headWord defs head).text ++ (headBody defs head ++ mangleArgs args) := by
  cases head with
  | declared head =>
    simp [spellHead, headWord, headBody, Word.text, DefTable.mangleDeclared]
  | shape module name =>
    have hname : name.takeWhile (· != '\x7b') ++ (name.dropWhile (· != '\x7b') ++
        mangleArgs args) = name ++ mangleArgs args := by
      rw [← append_assoc, takeWhile_append_dropWhile]
    simp only [spellHead, headWord, headBody, Word.text, DefTable.mangleDeclared,
      append_assoc, cons_append, nil_append, hname]
  | paramBucket module name => simp [spellHead, headWord, headBody, Word.text]
  | builtin name => simp [spellHead, headWord, headBody, Word.text]
  | unresolved name => exact hword.elim
  | binder name owner =>
    cases owner with
    | none => simp [spellHead, headWord, headBody, Word.text]
    | some owner =>
      rw [spellHead, headWord, headBody, ownerWord_text]
      simp [Word.text]
  | function => exact hword.elim
  | tuple => exact hword.elim
  | projection => exact hword.elim

section WellNamed

variable (hnamed : defs.WellNamed) (hmodules : ∀ module, ModuleText (defs.display module))

include hmodules

theorem ownerWord_readable {owner : BinderOwner} (h : ReadableOwner owner) :
    (ownerWord defs owner).Readable := by
  unfold ownerWord
  cases hassoc : owner.assoc with
  | none => exact ⟨hmodules _, atom_decimal _⟩
  | some assoc => exact ⟨hmodules _, atom_decimal _, h assoc hassoc⟩

include hnamed

theorem headWord_readable (hword : head.isWord)
    (h : ReadableHead defs builtins head) : (headWord defs head).Readable := by
  cases head with
  | declared head => exact ⟨hmodules _, hnamed.atom_mangled (Or.inl (by rwa [ReadableHead] at h))⟩
  | shape module name =>
    rw [ReadableHead] at h
    exact ⟨hmodules _, h.1.atom⟩
  | paramBucket module name => exact ⟨hmodules _, by rwa [ReadableHead] at h⟩
  | builtin name => exact hword
  | unresolved name => exact hword.elim
  | binder name owner =>
    rw [ReadableHead] at h
    exact h.1
  | function => exact hword.elim
  | tuple => exact hword.elim
  | projection => exact hword.elim

omit hnamed hmodules in
theorem headWord_isFamily (head : TypeHead Module) : (headWord defs head).isFamily = false := by
  cases head <;> rfl

omit hnamed hmodules in
/-- What goes on after a head's word. -/
theorem goes_body (hword : head.isWord)
    (h : ReadableHead defs builtins head) (names : List (FqTypeName Module)) {text : Text}
    (htext : Follows text) :
    ∃ run rest, headBody defs head ++ (mangleArgs (names.map (toMangled defs)) ++ text) =
      run ++ rest ∧ Goes (headWord defs head) run rest := by
  have hnone : headBody defs head = [] → ∃ run rest,
      headBody defs head ++ (mangleArgs (names.map (toMangled defs)) ++ text) = run ++ rest ∧
      Goes (headWord defs head) run rest := by
    intro hnil
    rw [hnil, nil_append]
    exact goes_args _ names htext
  cases head with
  | declared head => exact hnone rfl
  | shape module name =>
    rw [ReadableHead] at h
    rcases h.1.body with hnil | ⟨body, hbody, -⟩
    · exact hnone hnil
    · rw [headBody, hbody]
      exact ⟨[], _, rfl, .opens (by decide) _⟩
  | paramBucket module name => exact ⟨[], _, rfl, .owner rfl _⟩
  | builtin name => exact hnone rfl
  | unresolved name => exact hword.elim
  | binder name owner =>
    cases owner with
    | none => exact hnone rfl
    | some owner => exact ⟨[], _, rfl, .owner rfl _⟩
  | function => exact hword.elim
  | tuple => exact hword.elim
  | projection => exact hword.elim

omit hmodules in
/-- Owners are one when they are spelled as one. -/
theorem owner_ext {owner owner' : BinderOwner} (howner : ReadableOwner owner)
    (howner' : ReadableOwner owner') (h : ownerWord defs owner = ownerWord defs owner') :
    owner = owner' := by
  obtain ⟨⟨space, local_⟩, assoc⟩ := owner
  obtain ⟨⟨space', local'⟩, assoc'⟩ := owner'
  have hspace : ∀ {m m'}, defs.display (defs.moduleOfSpace m) =
      defs.display (defs.moduleOfSpace m') → m = m' := by
    intro m m' heq
    exact hnamed.parsed (hnamed.display_injective heq)
  cases assoc with
  | none =>
    cases assoc' with
    | none =>
      obtain ⟨hmodule, hnumber⟩ := Word.qualified.inj h
      cases hspace hmodule
      cases decimal_injective hnumber
      rfl
    | some assoc' => cases h
  | some assoc =>
    cases assoc' with
    | none => cases h
    | some assoc' =>
      obtain ⟨hmodule, hnumber, rfl⟩ := Word.family.inj h
      cases hspace hmodule
      cases decimal_injective hnumber
      rfl

/-- A name spelled as a word is told from another by the text. -/
theorem word_split
    (hopens : ∀ name : FqTypeName Module, Readable defs builtins name →
      ∃ c rest, toMangled defs name = c :: rest ∧ c ∉ [',', ')', ']', '>'])
    {head head' : TypeHead Module} (hword : head.isWord) (hword' : head'.isWord)
    (hhead : ReadableHead defs builtins head) (hhead' : ReadableHead defs builtins head')
    {names names' : List (FqTypeName Module)}
    (hsettled : Settled defs builtins names)
    (hnames : ∀ name ∈ names, Readable defs builtins name)
    (hnames' : ∀ name ∈ names', Readable defs builtins name)
    {text text' : Text} (htext : Follows text) (htext' : Follows text')
    (h : spellHead defs head (names.map (toMangled defs)) ++ text =
      spellHead defs head' (names'.map (toMangled defs)) ++ text') :
    head.normal = head'.normal ∧ names.map FqTypeName.normal = names'.map FqTypeName.normal ∧
      text = text' := by
  rw [spellHead_word hword, spellHead_word hword'] at h
  simp only [append_assoc] at h
  obtain ⟨run, rest, hrun, hgoes⟩ := goes_body hword hhead names htext
  obtain ⟨run', rest', hrun', hgoes'⟩ := goes_body hword' hhead' names' htext'
  rw [hrun, hrun'] at h
  obtain ⟨hwords, hafter⟩ := Word.split (headWord_readable hnamed hmodules hword hhead)
    (headWord_readable hnamed hmodules hword' hhead') hgoes hgoes' h
  rw [← hrun, ← hrun'] at hafter
  have hplain : headBody defs head = [] → headBody defs head' = [] →
      names.map FqTypeName.normal = names'.map FqTypeName.normal ∧ text = text' := by
    intro hnil hnil'
    rw [hnil, hnil'] at hafter
    exact args_split hopens hsettled hnames hnames' htext htext' hafter
  have hfirst : ∀ c rest, c ∈ ['#', '\x7b'] → headBody defs head = [] →
      headBody defs head' ≠ c :: rest := by
    intro c rest hc hnil hcons
    rw [hnil, hcons] at hafter
    have hin := args_head names htext hafter
    simp only [mem_cons, not_mem_nil, or_false] at hc
    rcases hc with rfl | rfl
    · exact absurd hin (by decide)
    · exact absurd hin (by decide)
  have hsecond : ∀ c rest, c ∈ ['#', '\x7b'] → headBody defs head' = [] →
      headBody defs head ≠ c :: rest := by
    intro c rest hc hnil hcons
    rw [hnil, hcons] at hafter
    have hin := args_head names' htext' hafter.symm
    simp only [mem_cons, not_mem_nil, or_false] at hc
    rcases hc with rfl | rfl
    · exact absurd hin (by decide)
    · exact absurd hin (by decide)
  cases head with
  | declared decl =>
    rw [ReadableHead] at hhead
    cases head' with
    | declared decl' =>
      rw [ReadableHead] at hhead'
      obtain ⟨hmodule, hmangled⟩ := Word.qualified.inj hwords
      obtain rfl := hnamed.mangled_injective (Or.inl ⟨hhead, hhead'⟩)
        (hnamed.display_injective hmodule) hmangled
      exact ⟨rfl, hplain rfl rfl⟩
    | shape module' name' =>
      rw [ReadableHead] at hhead'
      rcases hhead'.1.body with hnil | ⟨body, hbody, -⟩
      · obtain ⟨hmodule, hmangled⟩ := Word.qualified.inj hwords
        have hname : name'.takeWhile (· != '\x7b') = name' := by
          have hwhole := name'.takeWhile_append_dropWhile (p := (· != '\x7b'))
          rwa [hnil, append_nil] at hwhole
        exact absurd ⟨hnamed.display_injective hmodule, hmangled.trans hname⟩
          (hhead'.2 decl hhead)
      · exact absurd hbody (hfirst _ _ (by decide) rfl)
    | paramBucket => exact absurd rfl (hfirst _ _ (by decide) rfl)
    | builtin => cases hwords
    | unresolved => exact hword'.elim
    | binder => cases hwords
    | function => exact hword'.elim
    | tuple => exact hword'.elim
    | projection => exact hword'.elim
  | shape module name =>
    rw [ReadableHead] at hhead
    cases head' with
    | declared decl' =>
      rw [ReadableHead] at hhead'
      rcases hhead.1.body with hnil | ⟨body, hbody, -⟩
      · obtain ⟨hmodule, hmangled⟩ := Word.qualified.inj hwords
        have hname : name.takeWhile (· != '\x7b') = name := by
          have hwhole := name.takeWhile_append_dropWhile (p := (· != '\x7b'))
          rwa [hnil, append_nil] at hwhole
        exact absurd ⟨(hnamed.display_injective hmodule).symm, hmangled.symm.trans hname⟩
          (hhead.2 decl' hhead')
      · exact absurd hbody (hsecond _ _ (by decide) rfl)
    | shape module' name' =>
      rw [ReadableHead] at hhead'
      obtain ⟨hmodule, hatoms⟩ := Word.qualified.inj hwords
      obtain rfl := hnamed.display_injective hmodule
      have hwhole : ∀ {name : Text}, name =
          name.takeWhile (· != '\x7b') ++ name.dropWhile (· != '\x7b') :=
        takeWhile_append_dropWhile.symm
      rcases hhead.1.body with hnil | ⟨body, hbody, hbalanced⟩
      · rcases hhead'.1.body with hnil' | ⟨body', hbody', -⟩
        · have hname : name = name' := by
            rw [@hwhole name, @hwhole name', hatoms, hnil, hnil']
          subst hname
          exact ⟨rfl, hplain hnil hnil'⟩
        · exact absurd hbody' (hfirst _ _ (by decide) hnil)
      · rcases hhead'.1.body with hnil' | ⟨body', hbody', hbalanced'⟩
        · exact absurd hbody (hsecond _ _ (by decide) hnil')
        · rw [headBody, headBody, hbody, hbody', cons_append, cons_append,
            append_assoc, append_assoc] at hafter
          obtain ⟨rfl, hargs⟩ := balanced_split (by decide) hbalanced hbalanced'
            (List.cons.inj hafter).2
          have hname : name = name' := by
            rw [@hwhole name, @hwhole name', hatoms, hbody, hbody']
          subst hname
          exact ⟨rfl, args_split hopens hsettled hnames hnames' htext htext' hargs⟩
    | paramBucket =>
      rcases hhead.1.body with hnil | ⟨body, hbody, -⟩
      · exact absurd rfl (hfirst _ _ (by decide) hnil)
      · rw [headBody, hbody] at hafter
        exact absurd (List.cons.inj hafter).1 (by decide)
    | builtin => cases hwords
    | unresolved => exact hword'.elim
    | binder => cases hwords
    | function => exact hword'.elim
    | tuple => exact hword'.elim
    | projection => exact hword'.elim
  | paramBucket module name =>
    cases head' with
    | declared => exact absurd rfl (hsecond _ _ (by decide) rfl)
    | shape module' name' =>
      rw [ReadableHead] at hhead'
      rcases hhead'.1.body with hnil | ⟨body, hbody, -⟩
      · exact absurd rfl (hsecond _ _ (by decide) hnil)
      · rw [headBody, headBody, hbody] at hafter
        exact absurd (List.cons.inj hafter).1 (by decide)
    | paramBucket module' name' =>
      obtain ⟨hmodule, rfl⟩ := Word.qualified.inj hwords
      obtain rfl := hnamed.display_injective hmodule
      have hargs := append_cancel_left hafter
      exact ⟨rfl, args_split hopens hsettled hnames hnames' htext htext' hargs⟩
    | builtin => cases hwords
    | unresolved => exact hword'.elim
    | binder => cases hwords
    | function => exact hword'.elim
    | tuple => exact hword'.elim
    | projection => exact hword'.elim
  | builtin name =>
    rw [ReadableHead] at hhead
    cases head' with
    | declared => cases hwords
    | shape => cases hwords
    | paramBucket => cases hwords
    | builtin name' =>
      cases hwords
      exact ⟨rfl, hplain rfl rfl⟩
    | unresolved => exact hword'.elim
    | binder name' owner' =>
      cases hwords
      rw [ReadableHead] at hhead'
      cases owner' with
      | none => exact absurd hhead (hhead'.2.1 rfl)
      | some owner' => exact absurd rfl (hfirst _ _ (by decide) rfl)
    | function => exact hword'.elim
    | tuple => exact hword'.elim
    | projection => exact hword'.elim
  | unresolved => exact hword.elim
  | binder name owner =>
    rw [ReadableHead] at hhead
    cases head' with
    | declared => cases hwords
    | shape => cases hwords
    | paramBucket => cases hwords
    | builtin name' =>
      cases hwords
      rw [ReadableHead] at hhead'
      cases owner with
      | none => exact absurd hhead' (hhead.2.1 rfl)
      | some owner => exact absurd rfl (hsecond _ _ (by decide) rfl)
    | unresolved => exact hword'.elim
    | binder name' owner' =>
      cases hwords
      rw [ReadableHead] at hhead'
      cases owner with
      | none =>
        cases owner' with
        | none => exact ⟨rfl, hplain rfl rfl⟩
        | some owner' => exact absurd rfl (hfirst _ _ (by decide) rfl)
      | some owner =>
        cases owner' with
        | none => exact absurd rfl (hsecond _ _ (by decide) rfl)
        | some owner' =>
          have howner := hhead.2.2 owner rfl
          have howner' := hhead'.2.2 owner' rfl
          rw [headBody, headBody, cons_append, cons_append] at hafter
          have htexts := (List.cons.inj hafter).2
          obtain ⟨run, rest, hrun, hgoes⟩ :=
            @goes_args _ defs (ownerWord defs owner) names _ htext
          obtain ⟨run', rest', hrun', hgoes'⟩ :=
            @goes_args _ defs (ownerWord defs owner') names' _ htext'
          rw [hrun, hrun'] at htexts
          obtain ⟨hsame, hargs⟩ := Word.split (ownerWord_readable hmodules howner)
            (ownerWord_readable hmodules howner') hgoes hgoes' htexts
          rw [← hrun, ← hrun'] at hargs
          obtain rfl := owner_ext hnamed howner howner' hsame
          exact ⟨rfl, args_split hopens hsettled hnames hnames' htext htext' hargs⟩
    | function => exact hword'.elim
    | tuple => exact hword'.elim
    | projection => exact hword'.elim
  | function => exact hword.elim
  | tuple => exact hword.elim
  | projection => exact hword.elim

end WellNamed

end Wado.Mangle
