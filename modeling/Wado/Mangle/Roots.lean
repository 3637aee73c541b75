/-
A name as the innermost name it is projected from and the associated types behind it, each
told apart by the text.
-/
import Wado.Mangle.Heads

namespace Wado.Mangle

open UniqueSplit List FqTypeName

variable {Module : Type} {defs : DefTable Module} {builtins : Text → Prop}

/-- An associated type of what stands before it. -/
structure Member (Module : Type) where
  assoc : Text
  owningTrait : DefId
  traitArgs : List (FqTypeName Module)
  args : List (FqTypeName Module)

/-- The innermost name a name is projected from. -/
def root : FqTypeName Module → FqTypeName Module
  | .mk _ (.projection base _ _ _) _ => root base
  | name => name

/-- The associated types a name is projected through, innermost first. -/
def members : FqTypeName Module → List (Member Module)
  | .mk _ (.projection base assoc owningTrait traitArgs) args =>
    members base ++ [⟨assoc, owningTrait, traitArgs.getD [], args⟩]
  | _ => []

namespace Member

def text (defs : DefTable Module) (member : Member Module) : Text :=
  ':' :: ':' :: (member.assoc ++ '#' ::
    ((Word.qualified (defs.display (defs.module member.owningTrait))
      (defs.mangled member.owningTrait)).text ++
      (mangleTraitArgs (member.traitArgs.map (toMangled defs)) ++
        mangleArgs (member.args.map (toMangled defs)))))

structure Readable (defs : DefTable Module) (builtins : Text → Prop) (member : Member Module) :
    Prop where
  assoc : Atom member.assoc
  owningTrait : defs.kind member.owningTrait = .trait_
  traitArgs : ∀ name ∈ member.traitArgs, Mangle.Readable defs builtins name
  args : ∀ name ∈ member.args, Mangle.Readable defs builtins name

/-- The associated type, of a name and behind it. -/
def project (base : FqTypeName Module) (member : Member Module) : FqTypeName Module :=
  .mk [] (.projection base member.assoc member.owningTrait
    (some (member.traitArgs.map FqTypeName.normal))) (member.args.map FqTypeName.normal)

end Member

def TypeHead.isProjection : TypeHead Module → Bool
  | .projection .. => true
  | _ => false

theorem normal_mk (reference : List RefKind) (head : TypeHead Module)
    (args : List (FqTypeName Module)) :
    (mk reference head args).normal =
      .mk reference head.normal (args.map normal) := by
  rw [normal, normalAll_eq_map]

/-- What a readable name that stands behind no reference and is no function type is made of. -/
structure Rooted (defs : DefTable Module) (builtins : Text → Prop) (name : FqTypeName Module) :
    Prop where
  reference : (root name).reference = []
  isFunction : (root name).head.isFunction = false
  isProjection : (root name).head.isProjection = false
  readable : Readable defs builtins (root name)
  members : ∀ member ∈ members name, member.Readable defs builtins
  text : toMangled defs name = toMangled defs (root name) ++ (Mangle.members name).flatMap
    (Member.text defs)
  normal : name.normal = (Mangle.members name).foldl Member.project (root name).normal
  argsSmaller : ∀ arg ∈ (root name).args, sizeOf arg < sizeOf name
  membersSmaller : ∀ member ∈ Mangle.members name, ∀ arg, arg ∈ member.traitArgs ∨
    arg ∈ member.args → sizeOf arg < sizeOf name

theorem root_eq_self {reference : List RefKind} {head : TypeHead Module}
    {args : List (FqTypeName Module)} (h : head.isProjection = false) :
    root (.mk reference head args) = .mk reference head args ∧
      members (.mk reference head args) = [] := by
  cases head with
  | projection => cases h
  | _ => exact ⟨rfl, rfl⟩

theorem rooted_of_not_projection {head : TypeHead Module} {args : List (FqTypeName Module)}
    (hprojection : head.isProjection = false) (hfunction : head.isFunction = false)
    (hreadable : Readable defs builtins (.mk [] head args)) :
    Rooted defs builtins (.mk [] head args) := by
  obtain ⟨hroot, hmembers⟩ := @root_eq_self _ [] head args hprojection
  refine ⟨?_, ?_, ?_, ?_, ?_, ?_, ?_, ?_, ?_⟩
  · rw [hroot]
    rfl
  · rw [hroot]
    exact hfunction
  · rw [hroot]
    exact hprojection
  · rw [hroot]
    exact hreadable
  · rw [hmembers]
    intro member hmember
    cases hmember
  · rw [hroot, hmembers, flatMap_nil, append_nil]
  · rw [hroot, hmembers, foldl_nil]
  · rw [hroot]
    intro arg harg
    have hsmall : sizeOf arg < sizeOf args := sizeOf_lt_of_mem harg
    simp only [mk.sizeOf_spec]
    omega
  · rw [hmembers]
    intro member hmember
    cases hmember

theorem rooted : ∀ name : FqTypeName Module, Readable defs builtins name → name.reference = [] →
    name.head.isFunction = false → Rooted defs builtins name
  | .mk reference (.projection base assoc owningTrait traitArgs) args, hreadable, hreference,
      _ => by
    obtain rfl : reference = [] := hreference
    rw [Readable, ReadableHead, readableAll_iff, readableTraitArgs_iff] at hreadable
    obtain ⟨⟨hbase, hnone, hfunction, hassoc, htrait, htraitArgs⟩, hargs, -⟩ := hreadable
    have h := rooted base hbase hnone hfunction
    have hsize : sizeOf base < sizeOf
        (mk [] (.projection base assoc owningTrait traitArgs) args) := by
      simp only [mk.sizeOf_spec, TypeHead.projection.sizeOf_spec]
      omega
    refine ⟨h.reference, h.isFunction, h.isProjection, h.readable, ?_, ?_, ?_, ?_, ?_⟩
    · intro member hmember
      rcases mem_append.mp hmember with hmember | hmember
      · exact h.members member hmember
      · rw [mem_singleton] at hmember
        subst hmember
        exact ⟨hassoc, htrait, htraitArgs, hargs⟩
    · rw [root, members, flatMap_append, ← append_assoc, ← h.text, toMangled_eq,
        spellHead, traitArgsMangled_eq]
      simp [Member.text, Word.text]
    · rw [root, members, foldl_append, ← h.normal, normal_mk, TypeHead.normal,
        normalTraitArgs_eq]
      rfl
    · intro arg harg
      exact Nat.lt_trans (h.argsSmaller arg harg) hsize
    · intro member hmember arg harg
      rcases mem_append.mp hmember with hmember | hmember
      · exact Nat.lt_trans (h.membersSmaller member hmember arg harg) hsize
      · rw [mem_singleton] at hmember
        subst hmember
        simp only [mk.sizeOf_spec, TypeHead.projection.sizeOf_spec]
        rcases harg with harg | harg
        · cases traitArgs with
          | none => cases harg
          | some traitArgs =>
            have hsmall : sizeOf arg < sizeOf traitArgs := sizeOf_lt_of_mem harg
            simp only [Option.some.sizeOf_spec]
            omega
        · have hsmall : sizeOf arg < sizeOf args := sizeOf_lt_of_mem harg
          omega
  | .mk reference (.declared _) args, hreadable, hreference, hfunction => by
    obtain rfl : reference = [] := hreference
    exact rooted_of_not_projection rfl hfunction hreadable
  | .mk reference (.shape _ _) args, hreadable, hreference, hfunction => by
    obtain rfl : reference = [] := hreference
    exact rooted_of_not_projection rfl hfunction hreadable
  | .mk reference (.builtin _) args, hreadable, hreference, hfunction => by
    obtain rfl : reference = [] := hreference
    exact rooted_of_not_projection rfl hfunction hreadable
  | .mk reference (.unresolved _) args, hreadable, hreference, hfunction => by
    obtain rfl : reference = [] := hreference
    exact rooted_of_not_projection rfl hfunction hreadable
  | .mk reference (.function ..) args, hreadable, hreference, hfunction => by
    cases hfunction
  | .mk reference (.paramBucket _ _) args, hreadable, hreference, hfunction => by
    obtain rfl : reference = [] := hreference
    exact rooted_of_not_projection rfl hfunction hreadable
  | .mk reference (.binder _ _) args, hreadable, hreference, hfunction => by
    obtain rfl : reference = [] := hreference
    exact rooted_of_not_projection rfl hfunction hreadable
  | .mk reference .tuple args, hreadable, hreference, hfunction => by
    obtain rfl : reference = [] := hreference
    exact rooted_of_not_projection rfl hfunction hreadable

/-- The head and the arguments of the innermost name. -/
structure RootParts (defs : DefTable Module) (builtins : Text → Prop) (name : FqTypeName Module)
    (head : TypeHead Module) (args : List (FqTypeName Module)) : Prop where
  isFunction : head.isFunction = false
  isProjection : head.isProjection = false
  readableHead : ReadableHead defs builtins head
  readableArgs : ∀ arg ∈ args, Readable defs builtins arg
  argsSmaller : ∀ arg ∈ args, sizeOf arg < sizeOf name
  text : ∀ text, toMangled defs name ++ text = spellHead defs head (args.map (toMangled defs)) ++
      ((members name).flatMap (Member.text defs) ++ text)
  normal : name.normal = (members name).foldl Member.project
    (.mk [] head.normal (args.map FqTypeName.normal))

theorem Rooted.exists_parts {name : FqTypeName Module} (h : Rooted defs builtins name) :
    ∃ head args, RootParts defs builtins name head args := by
  rcases hroot : root name with ⟨reference, head, args⟩
  have hreference := h.reference
  have hreadable := h.readable
  rw [hroot] at hreference hreadable
  obtain rfl : reference = [] := hreference
  rw [Readable, readableAll_iff] at hreadable
  refine ⟨head, args, ?_, ?_, hreadable.1, hreadable.2.1, ?_, ?_, ?_⟩
  · have hfunction := h.isFunction
    rwa [hroot] at hfunction
  · have hprojection := h.isProjection
    rwa [hroot] at hprojection
  · have hsmaller := h.argsSmaller
    rwa [hroot] at hsmaller
  · intro text
    rw [h.text, hroot, toMangled_eq, append_assoc]
    rfl
  · rw [h.normal, hroot, normal_mk]

/-- An innermost name is a tuple, the unit type or a word. -/
theorem root_kinds {head : TypeHead Module} (hbuiltins : BuiltinNames builtins)
    (hprojection : head.isProjection = false) (hfunction : head.isFunction = false)
    (h : ReadableHead defs builtins head) :
    head = .tuple ∨ head = .builtin unitTypeName ∨ head.isWord := by
  cases head with
  | tuple => exact Or.inl rfl
  | builtin name =>
    rw [ReadableHead] at h
    rcases hbuiltins name h with rfl | hatom
    · exact Or.inr (Or.inl rfl)
    · exact Or.inr (Or.inr hatom)
  | unresolved name => exact absurd h (by rw [ReadableHead]; exact id)
  | function => cases hfunction
  | projection => cases hprojection
  | declared => exact Or.inr (Or.inr trivial)
  | shape => exact Or.inr (Or.inr trivial)
  | paramBucket => exact Or.inr (Or.inr trivial)
  | binder => exact Or.inr (Or.inr trivial)

theorem Word.opens {w : Word} (h : w.Readable) : ∃ c rest, w.text = c :: rest ∧ Plain c := by
  have hne : w.text ≠ [] := by
    cases w with
    | bare name => exact h.nonempty
    | qualified module name => simp [Word.text]
    | family module number assoc => simp [Word.text]
  obtain ⟨c, rest, heq⟩ := exists_cons_of_ne_nil hne
  refine ⟨c, rest, heq, Word.plain h c ?_⟩
  rw [heq]
  exact mem_cons_self ..

/-- What goes on after a word opens with none of the letters of `mut`. -/
theorem Goes.head {w : Word} {run rest text : Text} {c : Char} (h : Goes w run rest)
    (heq : run ++ rest = c :: text) :
    c ∈ ['<', '[', '\x7b', '#', ',', ')', ']', '>', 'w', ':'] := by
  cases h with
  | follow h =>
    have hin := Follows.head ⟨run, rest, heq.symm, h⟩
    simp only [mem_cons, not_mem_nil, or_false] at hin ⊢
    tauto
  | opens hopens =>
    obtain ⟨rfl, -⟩ := List.cons.inj heq
    simp only [mem_cons, not_mem_nil, or_false] at hopens ⊢
    tauto
  | owner =>
    obtain ⟨rfl, -⟩ := List.cons.inj heq
    decide

section WellNamed

variable (hnamed : defs.WellNamed) (hmodules : ∀ module, ModuleText (defs.display module))

include hnamed hmodules

theorem word_opens {head : TypeHead Module} (hword : head.isWord)
    (h : ReadableHead defs builtins head) (args : List Text) :
    ∃ c rest, spellHead defs head args = c :: rest ∧ Plain c := by
  obtain ⟨c, rest, heq, hplain⟩ := Word.opens (headWord_readable hnamed hmodules hword h)
  rw [spellHead_word hword, heq]
  exact ⟨c, _, rfl, hplain⟩

theorem word_unreferenced {head : TypeHead Module} (hword : head.isWord)
    (h : ReadableHead defs builtins head) (names : List (FqTypeName Module)) {text : Text}
    (htext : Follows text) :
    Unreferenced (spellHead defs head (names.map (toMangled defs)) ++ text) := by
  constructor
  · intro rest heq
    obtain ⟨c, more, hopens, hplain⟩ :=
      word_opens hnamed hmodules hword h (names.map (toMangled defs))
    rw [hopens] at heq
    obtain ⟨rfl, -⟩ := List.cons.inj heq
    exact absurd hplain (by decide)
  · obtain ⟨run, rest, hrun, hgoes⟩ := goes_body hword h names htext
    have hreadable := headWord_readable hnamed hmodules hword h
    rw [spellHead_word hword]
    simp only [append_assoc]
    rw [hrun]
    cases hheadWord : headWord defs head with
    | bare name =>
      rw [hheadWord] at hreadable
      apply notMut_append hreadable.unspaced
      intro c tail heq
      have hin := hgoes.head heq
      simp only [mem_cons, not_mem_nil, or_false] at hin
      rcases hin with rfl | rfl | rfl | rfl | rfl | rfl | rfl | rfl | rfl | rfl <;> decide
    | qualified module name =>
      rw [hheadWord] at hreadable
      have hmodule := @notMut_module _ (name ++ (run ++ rest)) hreadable.1.notMut
      simpa [Word.text] using hmodule
    | family module number assoc =>
      have hfamily := @headWord_isFamily _ defs head
      rw [hheadWord] at hfamily
      cases hfamily

variable (hbuiltins : BuiltinNames builtins)

include hbuiltins

theorem root_unreferenced {head : TypeHead Module} (hprojection : head.isProjection = false)
    (hfunction : head.isFunction = false) (h : ReadableHead defs builtins head)
    (names : List (FqTypeName Module)) {text : Text} (htext : Follows text) :
    Unreferenced (spellHead defs head (names.map (toMangled defs)) ++ text) := by
  have hopened : ∀ {c : Char} {rest : Text}, c ∈ ['[', '('] → Unreferenced (c :: rest) := by
    intro c rest hc
    simp only [mem_cons, not_mem_nil, or_false] at hc
    constructor
    · intro rest' heq
      obtain ⟨rfl, -⟩ := List.cons.inj heq
      exact absurd hc (by decide)
    · rintro ⟨tail, heq⟩
      obtain ⟨rfl, -⟩ := List.cons.inj heq
      exact absurd hc (by decide)
  rcases root_kinds hbuiltins hprojection hfunction h with rfl | rfl | hword
  · exact hopened (by decide)
  · exact hopened (by decide)
  · exact word_unreferenced hnamed hmodules hword h names htext

/-- An innermost name opens with no closing bracket, and no function type's text opens it. -/
theorem root_opens {head : TypeHead Module} (hprojection : head.isProjection = false)
    (hfunction : head.isFunction = false) (h : ReadableHead defs builtins head)
    (names : List (FqTypeName Module)) {text : Text} (htext : Follows text) :
    (∃ c rest, spellHead defs head (names.map (toMangled defs)) = c :: rest ∧
      c ∉ [',', ')', ']', '>']) ∧
    (∀ rest, spellHead defs head (names.map (toMangled defs)) ++ text ≠ '(' :: 'f' :: rest) ∧
    ∀ isMut rest, spellHead defs head (names.map (toMangled defs)) ++ text ≠
      fnKeyword isMut ++ '(' :: rest := by
  have hkeyword : ∀ isMut, ∃ rest, fnKeyword isMut = 'f' :: rest := by
    intro isMut
    cases isMut
    · exact ⟨_, rfl⟩
    · exact ⟨_, rfl⟩
  rcases root_kinds hbuiltins hprojection hfunction h with rfl | rfl | hword
  · refine ⟨⟨_, _, rfl, by decide⟩, ?_, ?_⟩
    · intro rest heq
      exact absurd (List.cons.inj heq).1 (by decide)
    · intro isMut rest heq
      obtain ⟨more, hmore⟩ := hkeyword isMut
      rw [hmore] at heq
      exact absurd (List.cons.inj heq).1 (by decide)
  · refine ⟨⟨_, _, rfl, by decide⟩, ?_, ?_⟩
    · intro rest heq
      exact absurd (List.cons.inj (List.cons.inj heq).2).1 (by decide)
    · intro isMut rest heq
      obtain ⟨more, hmore⟩ := hkeyword isMut
      rw [hmore] at heq
      exact absurd (List.cons.inj heq).1 (by decide)
  · obtain ⟨c, more, hopens, hplain⟩ :=
      word_opens hnamed hmodules hword h (names.map (toMangled defs))
    refine ⟨⟨c, more, hopens, ?_⟩, ?_, ?_⟩
    · intro hin
      simp only [mem_cons, not_mem_nil, or_false] at hin
      rcases hin with rfl | rfl | rfl | rfl
      all_goals exact absurd hplain (by decide)
    · intro rest heq
      rw [hopens] at heq
      obtain ⟨rfl, -⟩ := List.cons.inj heq
      exact absurd hplain (by decide)
    · intro isMut rest heq
      obtain ⟨run, rest', hrun, hgoes⟩ := goes_body hword h names htext
      rw [spellHead_word hword] at heq
      simp only [append_assoc] at heq
      rw [hrun, ← append_assoc] at heq
      have hruns : ∀ c ∈ (headWord defs head).text ++ run, Plain c := by
        intro c hc
        rcases mem_append.mp hc with hc | hc
        · exact Word.plain (headWord_readable hnamed hmodules hword h) c hc
        · exact hgoes.plain c hc
      have hletters : ∀ c ∈ fnKeyword isMut, Plain c := by
        cases isMut <;> exact plain_of_all (by decide)
      obtain ⟨hsame, rfl⟩ := run_split Plain hruns hletters hgoes.leaves
        (leaves_cons.mpr (by decide)) heq
      have hrun' : run = withText := by
        cases hgoes with
        | follow hfollow =>
          cases hfollow with
          | closes hcloses => exact absurd hcloses.head (by decide)
          | clause => rfl
        | opens hopens => exact absurd hopens (by decide)
      have hsuffix : withText <:+ fnKeyword isMut := ⟨_, by rw [← hsame, hrun']⟩
      cases isMut
      · exact absurd hsuffix (by decide)
      · exact absurd hsuffix (by decide)

end WellNamed

end Wado.Mangle
