/-
The innermost name of a spelling and the associated types behind it, told apart by the text.
-/
import Wado.Mangle.Roots

namespace Wado.Mangle

open UniqueSplit List

variable {Module : Type} {defs : DefTable Module} {builtins : Text → Prop}

variable {text : Text}

/-- What goes on after associated types, when something may go on after them. -/
theorem follows_members {members : List (Member Module)}
    (hmembers : ∀ member ∈ members, member.Readable defs builtins)
    (htext : Follows text) : Follows (members.flatMap (Member.text defs) ++ text) := by
  cases members with
  | nil => exact htext
  | cons member members =>
    have hassoc := (hmembers member (mem_cons_self ..)).assoc
    rw [flatMap_cons, Member.text]
    simp only [cons_append, append_assoc]
    exact ⟨':' :: ':' :: member.assoc, _, rfl, .member hassoc _⟩

/-- A text no associated type opens. -/
def NotMember (text : Text) : Prop :=
  ∀ rest, text ≠ ':' :: rest

variable {name : FqTypeName Module}

theorem Ends.notMember (h : Ends name text) :
    NotMember text := by
  rintro rest rfl
  rcases h with h | ⟨-, rest', heq⟩
  · exact absurd h.head (by decide)
  · exact absurd (List.cons.inj heq).1 (by decide)

section WellNamed

variable (hnamed : defs.WellNamed) (hmodules : ∀ module, ModuleText (defs.display module))
  (hbuiltins : BuiltinNames builtins)

include hnamed hmodules hbuiltins

/-- A name's spelling behind its references, whatever heads it. -/
theorem head_unreferenced {head : TypeHead Module} {args : List (FqTypeName Module)}
    (h : Readable defs builtins (.mk [] head args)) (htext : Follows text) :
    Unreferenced (spellHead defs head (args.map (toMangled defs)) ++ text) := by
  cases hfunction : head.isFunction with
  | true =>
    cases head with
    | function isMut params ret effects =>
      constructor
      · intro rest heq
        cases isMut
        · exact absurd (List.cons.inj heq).1 (by decide)
        · exact absurd (List.cons.inj heq).1 (by decide)
      · rintro ⟨tail, heq⟩
        cases isMut
        · exact absurd (List.cons.inj heq).1 (by decide)
        · exact absurd (List.cons.inj heq).1 (by decide)
    | _ => cases hfunction
  | false =>
    have hrooted := rooted _ h rfl hfunction
    obtain ⟨head', args', hroot⟩ := hrooted.exists_parts
    have hafter := follows_members hrooted.members htext
    have hsame : spellHead defs head (args.map (toMangled defs)) =
        toMangled defs (.mk [] head args) := by
      rw [toMangled_eq]
      rfl
    rw [hsame, hroot.text]
    exact root_unreferenced hnamed hmodules hbuiltins hroot.isProjection hroot.isFunction
      hroot.readableHead args' hafter

/-- No name is spelled from a closing bracket on. -/
theorem toMangled_opens (name : FqTypeName Module) (h : Readable defs builtins name) :
    ∃ c rest, toMangled defs name = c :: rest ∧ c ∉ [',', ')', ']', '>'] := by
  obtain ⟨reference, head, args⟩ := name
  rw [toMangled_eq]
  cases reference with
  | cons kind reference =>
    cases kind with
    | shared => exact ⟨_, _, rfl, by decide⟩
    | mut_ => exact ⟨_, _, rfl, by decide⟩
  | nil =>
    have hbare : Readable defs builtins (.mk [] head args) := by
      rw [Readable] at h ⊢
      exact h
    cases hfunction : head.isFunction with
    | true =>
      cases head with
      | function isMut params ret effects =>
        cases isMut
        · exact ⟨_, _, rfl, by decide⟩
        · exact ⟨_, _, rfl, by decide⟩
      | _ => cases hfunction
    | false =>
      have hrooted := rooted _ hbare rfl hfunction
      obtain ⟨head', args', hroot⟩ := hrooted.exists_parts
      have hfollows : Follows ((members (.mk [] head args)).flatMap (Member.text defs) ++ []) :=
        follows_members hrooted.members ⟨[], [], rfl, .closes (Or.inl rfl)⟩
      obtain ⟨⟨c, rest, heq, hc⟩, -, -⟩ := root_opens hnamed hmodules hbuiltins
        hroot.isProjection hroot.isFunction hroot.readableHead args' hfollows
      have htext := hroot.text []
      rw [heq, toMangled_eq, append_nil] at htext
      exact ⟨c, _, htext, hc⟩

/-- No name but a function type's is spelled as a parenthesised function type. -/
theorem toMangled_ne_parenthesised (h : Readable defs builtins name)
    (hfunction : name.head.isFunction = false) {text rest : Text} (htext : Follows text) :
    toMangled defs name ++ text ≠ '(' :: 'f' :: rest := by
  obtain ⟨reference, head, args⟩ := name
  rw [toMangled_eq]
  intro heq
  cases reference with
  | cons kind reference =>
    cases kind with
    | shared => exact absurd (List.cons.inj heq).1 (by decide)
    | mut_ => exact absurd (List.cons.inj heq).1 (by decide)
  | nil =>
    have hbare : Readable defs builtins (.mk [] head args) := by
      rw [Readable] at h ⊢
      exact h
    have hrooted := rooted _ hbare rfl hfunction
    obtain ⟨head', args', hroot⟩ := hrooted.exists_parts
    have hfollows := follows_members hrooted.members htext
    obtain ⟨-, hopen, -⟩ := root_opens hnamed hmodules hbuiltins hroot.isProjection
      hroot.isFunction hroot.readableHead args' hfollows
    have hwhole := hroot.text text
    rw [toMangled_eq] at hwhole
    exact hopen rest (hwhole.symm.trans heq)

variable {text text' : Text}

/-- An innermost name, and what goes on after it, is settled by the text. -/
theorem root_split {head head' : TypeHead Module} {args args' : List (FqTypeName Module)}
    (hprojection : head.isProjection = false) (hprojection' : head'.isProjection = false)
    (hfunction : head.isFunction = false) (hfunction' : head'.isFunction = false)
    (hhead : ReadableHead defs builtins head) (hhead' : ReadableHead defs builtins head')
    (hargs : ∀ arg ∈ args, Readable defs builtins arg)
    (hargs' : ∀ arg ∈ args', Readable defs builtins arg)
    (hsettled : Settled defs builtins args) (htext : Follows text) (htext' : Follows text')
    (h : spellHead defs head (args.map (toMangled defs)) ++ text =
      spellHead defs head' (args'.map (toMangled defs)) ++ text') :
    head.normal = head'.normal ∧ args.map FqTypeName.normal = args'.map FqTypeName.normal ∧
      text = text' := by
  have hopens := toMangled_opens hnamed hmodules hbuiltins
  have hword : ∀ {head : TypeHead Module} {args : List Text} {c : Char} {text rest : Text},
      head.isWord → ReadableHead defs builtins head → c ∈ ['[', '('] →
      spellHead defs head args ++ text ≠ c :: rest := by
    intro head args c text rest hword hhead hc heq
    obtain ⟨d, more, hd, hplain⟩ := word_opens hnamed hmodules hword hhead args
    rw [hd] at heq
    obtain ⟨rfl, -⟩ := List.cons.inj heq
    simp only [mem_cons, not_mem_nil, or_false] at hc
    rcases hc with rfl | rfl
    · exact absurd hplain (by decide)
    · exact absurd hplain (by decide)
  rcases root_kinds hbuiltins hprojection hfunction hhead with rfl | rfl | hisWord
  · rcases root_kinds hbuiltins hprojection' hfunction' hhead' with rfl | rfl | hisWord'
    · simp only [spellHead, mangleTupleType, append_assoc, cons_append,
        nil_append] at h
      obtain ⟨hnames, hrest⟩ :=
        names_split hopens (by decide) hsettled hargs hargs' (List.cons.inj h).2
      exact ⟨rfl, hnames, hrest⟩
    · exact absurd (List.cons.inj h).1 (by decide)
    · exact absurd h.symm (hword hisWord' hhead' (by decide))
  · rcases root_kinds hbuiltins hprojection' hfunction' hhead' with rfl | rfl | hisWord'
    · exact absurd (List.cons.inj h).1 (by decide)
    · rw [spellHead, spellHead, append_assoc, append_assoc] at h
      have htails := append_cancel_left h
      exact ⟨rfl, args_split hopens hsettled hargs hargs' htext htext' htails⟩
    · exact absurd h.symm (hword hisWord' hhead' (by decide))
  · rcases root_kinds hbuiltins hprojection' hfunction' hhead' with rfl | rfl | hisWord'
    · exact absurd h (hword hisWord hhead (by decide))
    · exact absurd h (hword hisWord hhead (by decide))
    · exact word_split hnamed hmodules hopens hisWord hisWord' hhead hhead' hsettled hargs hargs'
        htext htext' h

/-- An associated type, and what goes on after it, is settled by the text. -/
theorem member_split {member member' : Member Module} (hmember : member.Readable defs builtins)
    (hmember' : member'.Readable defs builtins) (hsettled : Settled defs builtins member.traitArgs)
    (hsettled' : Settled defs builtins member.args) (htext : Follows text) (htext' : Follows text')
    (h : member.text defs ++ text = member'.text defs ++ text') :
    (∀ base, Member.project base member = Member.project base member') ∧ text = text' := by
  have hopens := toMangled_opens hnamed hmodules hbuiltins
  simp only [Member.text, cons_append, append_assoc] at h
  have hnames := (List.cons.inj (List.cons.inj h).2).2
  obtain ⟨hassoc, hafter⟩ := run_split Plain hmember.assoc.plain hmember'.assoc.plain
    (leaves_cons.mpr (by decide)) (leaves_cons.mpr (by decide)) hnames
  have hgoes : ∀ {w : Word} {member : Member Module} {text : Text}, Follows text →
      ∃ run rest, mangleTraitArgs (member.traitArgs.map (toMangled defs)) ++
        (mangleArgs (member.args.map (toMangled defs)) ++ text) = run ++ rest ∧
        Goes w run rest := by
    intro w member text htext
    rw [mangleTraitArgs_map]
    split
    · exact goes_args w member.args htext
    · exact ⟨[], _, rfl, .opens (by decide) _⟩
  have hword : ∀ {member : Member Module}, member.Readable defs builtins →
      (Word.qualified (defs.display (defs.module member.owningTrait))
        (defs.mangled member.owningTrait)).Readable := by
    intro member hmember
    exact ⟨hmodules _, hnamed.atom_mangled (Or.inr hmember.owningTrait)⟩
  obtain ⟨run, rest, hrun, hgoes₁⟩ := @hgoes _ member _ htext
  obtain ⟨run', rest', hrun', hgoes₂⟩ := @hgoes _ member' _ htext'
  have htraits := (List.cons.inj hafter).2
  rw [hrun, hrun'] at htraits
  obtain ⟨hwords, hlists⟩ := Word.split (hword hmember) (hword hmember') hgoes₁ hgoes₂ htraits
  rw [← hrun, ← hrun'] at hlists
  obtain ⟨hmodule, hmangled⟩ := Word.qualified.inj hwords
  have htrait := hnamed.mangled_injective
    (Or.inr ⟨hmember.owningTrait, hmember'.owningTrait⟩) (hnamed.display_injective hmodule) hmangled
  have hbracket : ∀ {member : Member Module} {text rest : Text}, Follows text →
      mangleArgs (member.args.map (toMangled defs)) ++ text ≠ '[' :: rest := by
    intro member text rest htext heq
    exact absurd (args_head member.args htext heq) (by decide)
  obtain ⟨htraitArgs, htails⟩ := traitArgs_split hopens hsettled hmember.traitArgs
    hmember'.traitArgs (fun rest => hbracket htext) (fun rest => hbracket htext') hlists
  obtain ⟨hargs, hrest⟩ := args_split hopens hsettled' hmember.args hmember'.args htext htext'
    htails
  refine ⟨?_, hrest⟩
  intro base
  rw [Member.project, Member.project, hassoc, htrait, htraitArgs, hargs]

/-- So are the associated types behind a name. -/
theorem members_split : ∀ {through through' : List (Member Module)} {text text' : Text},
    (∀ member ∈ through, member.Readable defs builtins) →
    (∀ member ∈ through', member.Readable defs builtins) →
    (∀ member ∈ through, Settled defs builtins member.traitArgs ∧
      Settled defs builtins member.args) →
    Follows text → Follows text' → NotMember text → NotMember text' →
    through.flatMap (Member.text defs) ++ text = through'.flatMap (Member.text defs) ++ text' →
    (∀ base, through.foldl Member.project base = through'.foldl Member.project base) ∧ text = text'
  | [], [], _, _, _, _, _, _, _, _, _, h => ⟨fun _ => rfl, h⟩
  | [], member' :: through', text, text', _, _, _, _, _, hnot, _, h => absurd h (hnot _)
  | member :: through, [], text, text', _, _, _, _, _, _, hnot', h => absurd h.symm (hnot' _)
  | member :: through, member' :: through', text, text', hthrough, hthrough', hsettled, htext,
      htext', hnot, hnot', h => by
    rw [flatMap_cons, flatMap_cons, append_assoc, append_assoc] at h
    have hrest : ∀ m ∈ through, m.Readable defs builtins :=
      fun m hm => hthrough m (mem_cons_of_mem _ hm)
    have hrest' : ∀ m ∈ through', m.Readable defs builtins :=
      fun m hm => hthrough' m (mem_cons_of_mem _ hm)
    obtain ⟨hproject, htails⟩ := member_split hnamed hmodules hbuiltins
      (hthrough member (mem_cons_self ..)) (hthrough' member' (mem_cons_self ..))
      (hsettled member (mem_cons_self ..)).1 (hsettled member (mem_cons_self ..)).2
      (follows_members hrest htext) (follows_members hrest' htext') h
    obtain ⟨hfolds, hends⟩ := members_split hrest hrest'
      (fun m hm => hsettled m (mem_cons_of_mem _ hm)) htext htext' hnot hnot' htails
    refine ⟨?_, hends⟩
    intro base
    rw [foldl_cons, foldl_cons, hproject, hfolds]

end WellNamed

end Wado.Mangle
