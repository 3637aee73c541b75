/-
The names a mangled spelling can be read back from, and a name apart from how an absent
list of trait arguments is written.
-/
import Wado.Mangle.Words

namespace Wado.Mangle

open UniqueSplit

variable {Module : Type}

/-- What tells the declarations of a program apart: modules are displayed differently,
declared names are identifiers, and two declarations one position can be headed by have one
name in one module only inside functions, at nodes of two numbers. -/
structure DefTable.WellNamed (defs : DefTable Module) : Prop where
  display_injective : Function.Injective defs.display
  parsed : Function.Injective defs.moduleOfSpace
  identifiers : ∀ head, (defs.kind head).isType = true ∨ defs.kind head = .trait_ ∨
    (defs.kind head).isEffect = true → isValidIdent (defs.name head) = true
  distinct : ∀ head head', ((defs.kind head).isType = true ∧ (defs.kind head').isType = true) ∨
      (defs.kind head = .trait_ ∧ defs.kind head' = .trait_) ∨
      ((defs.kind head).isEffect = true ∧ (defs.kind head').isEffect = true) →
    defs.module head = defs.module head' → defs.name head = defs.name head' →
    defs.isFunctionLocal head = defs.isFunctionLocal head' →
    (defs.isFunctionLocal head = true →
      (defs.astId head).local_ = (defs.astId head').local_) → head = head'
  /-- No effect and no resource is declared inside a function. -/
  effects : ∀ head, (defs.kind head).isEffect = true → defs.isFunctionLocal head = false

/-- The spelling of a builtin shape that is no name. -/
def unitTypeName : Text :=
  ['(', ')']

/-- A shape's name: a name alone, or one with a body between braces. -/
structure ShapeName (name : Text) : Prop where
  atom : Atom (name.takeWhile (· != '\x7b'))
  body : name.dropWhile (· != '\x7b') = [] ∨
    ∃ body, name.dropWhile (· != '\x7b') = '\x7b' :: (body ++ ['\x7d']) ∧
      Balanced '\x7b' '\x7d' body

section

variable (defs : DefTable Module) (builtins : Text → Prop)

def ReadableEffect : EffectRef Module → Prop
  | .concrete head => (defs.kind head).isEffect = true
  | .undeclared name moduleSource => isValidIdent name = true ∧
      ∀ head, (defs.kind head).isEffect = true →
        ¬ (defs.module head = moduleSource ∧ defs.name head = name)
  | .param name => isValidIdent name = true
  | .var _ => True

def ReadableOwner (owner : BinderOwner) : Prop :=
  ∀ assoc, owner.assoc = some assoc → Atom assoc

mutual

/-- A name whose spelling can be read back: a shape is named by none of the program's
declarations, a binder no owner tells apart is not named as a builtin, a function type has
no arguments and returns no reference to a function type, and a projection is off a type
that is neither a reference nor a function type. -/
def Readable : FqTypeName Module → Prop
  | .mk _ head args => ReadableHead head ∧ ReadableAll args ∧ (head.isFunction = true → args = [])

def ReadableHead : TypeHead Module → Prop
  | .declared head => (defs.kind head).isType = true
  | .shape module name => ShapeName name ∧ ∀ head, (defs.kind head).isType = true →
        ¬ (defs.module head = module ∧ defs.mangled head = name)
  | .builtin name => builtins name
  | .unresolved _ => False
  | .function _ params ret effects => ReadableAll params ∧ Readable ret ∧
      (ret.head.isFunction = true → ret.reference = []) ∧
      ∀ effect ∈ effects, ReadableEffect defs effect
  | .paramBucket _ name => Atom name
  | .binder name owner => Atom name ∧ (owner = none → ¬ builtins name) ∧
      ∀ item, owner = some item → ReadableOwner item
  | .tuple => True
  | .projection base assoc owningTrait traitArgs => Readable base ∧ base.reference = [] ∧
      base.head.isFunction = false ∧ Atom assoc ∧ defs.kind owningTrait = .trait_ ∧
      ReadableTraitArgs traitArgs

def ReadableAll : List (FqTypeName Module) → Prop
  | [] => True
  | name :: names => Readable name ∧ ReadableAll names

def ReadableTraitArgs : Option (List (FqTypeName Module)) → Prop
  | none => True
  | some traitArgs => ReadableAll traitArgs

end

/-- The builtin shapes' names: the unit type, and names no separator stands in. -/
def BuiltinNames : Prop :=
  ∀ name, builtins name → name = unitTypeName ∨ Atom name

variable {defs builtins}

theorem readableAll_iff {names : List (FqTypeName Module)} :
    ReadableAll defs builtins names ↔ ∀ name ∈ names, Readable defs builtins name := by
  induction names with
  | nil => simp [ReadableAll]
  | cons name names ih =>
    rw [ReadableAll, ih]
    simp

theorem readableTraitArgs_iff {traitArgs : Option (List (FqTypeName Module))} :
    ReadableTraitArgs defs builtins traitArgs ↔
      ∀ name ∈ traitArgs.getD [], Readable defs builtins name := by
  cases traitArgs with
  | none => simp [ReadableTraitArgs]
  | some names => exact readableAll_iff

end

mutual

/-- A name where trait arguments left unwritten are an empty list. -/
def FqTypeName.normal : FqTypeName Module → FqTypeName Module
  | .mk reference head args => .mk reference head.normal (normalAll args)

def TypeHead.normal : TypeHead Module → TypeHead Module
  | .function isMut params ret effects =>
    .function isMut (normalAll params) ret.normal effects
  | .projection base assoc owningTrait traitArgs =>
    .projection base.normal assoc owningTrait (some (normalTraitArgs traitArgs))
  | .declared head => .declared head
  | .shape module name => .shape module name
  | .builtin name => .builtin name
  | .unresolved name => .unresolved name
  | .paramBucket module name => .paramBucket module name
  | .binder name owner => .binder name owner
  | .tuple => .tuple

def normalAll : List (FqTypeName Module) → List (FqTypeName Module)
  | [] => []
  | name :: names => name.normal :: normalAll names

def normalTraitArgs : Option (List (FqTypeName Module)) → List (FqTypeName Module)
  | none => []
  | some traitArgs => normalAll traitArgs

end

theorem normalAll_eq_map (names : List (FqTypeName Module)) :
    normalAll names = names.map FqTypeName.normal := by
  induction names with
  | nil => rfl
  | cons name names ih => rw [normalAll, ih, List.map_cons]

theorem normalTraitArgs_eq (traitArgs : Option (List (FqTypeName Module))) :
    normalTraitArgs traitArgs = (traitArgs.getD []).map FqTypeName.normal := by
  cases traitArgs with
  | none => rfl
  | some names => exact normalAll_eq_map names

/-- Declarations one position can be headed by are one when they are spelled as one. -/
theorem DefTable.WellNamed.mangled_injective {defs : DefTable Module} (h : defs.WellNamed)
    {head head' : DefId}
    (hkinds : ((defs.kind head).isType = true ∧ (defs.kind head').isType = true) ∨
      (defs.kind head = .trait_ ∧ defs.kind head' = .trait_))
    (hmodule : defs.module head = defs.module head')
    (hmangled : defs.mangled head = defs.mangled head') : head = head' := by
  have hnamed : ∀ head, (defs.kind head).isType = true ∨ defs.kind head = .trait_ →
      ∀ c ∈ defs.name head, isIdentContinue c = true := by
    intro head hkind
    apply (isIdentContinue_of_isValidIdent (h.identifiers head ?_)).2
    rcases hkind with hkind | hkind
    · exact Or.inl hkind
    · exact Or.inr (Or.inl hkind)
  have hname := hnamed head (hkinds.imp And.left And.left)
  have hname' := hnamed head' (hkinds.imp And.right And.right)
  have hsep : isIdentContinue localItemIdSep = false := by decide
  have hlocal : ∀ {head head'}, (∀ c ∈ defs.name head, isIdentContinue c = true) →
      defs.isFunctionLocal head = false → defs.isFunctionLocal head' = true →
      defs.mangled head ≠ defs.mangled head' := by
    intro head head' hname hglobal hlocal heq
    rw [DefTable.mangled, DefTable.mangled, if_neg (by rw [hglobal]; decide), if_pos hlocal,
      mangleLocalItemName] at heq
    have hin : localItemIdSep ∈ defs.name head := by
      rw [heq]
      simp
    rw [hname _ hin] at hsep
    cases hsep
  have hkinds' : ((defs.kind head).isType = true ∧ (defs.kind head').isType = true) ∨
      (defs.kind head = .trait_ ∧ defs.kind head' = .trait_) ∨
      ((defs.kind head).isEffect = true ∧ (defs.kind head').isEffect = true) :=
    hkinds.elim Or.inl (fun hkind => Or.inr (Or.inl hkind))
  cases hfirst : defs.isFunctionLocal head with
  | false =>
    cases hsecond : defs.isFunctionLocal head' with
    | false =>
      rw [DefTable.mangled, DefTable.mangled, if_neg (by rw [hfirst]; decide),
        if_neg (by rw [hsecond]; decide)] at hmangled
      apply h.distinct head head' hkinds' hmodule hmangled (by rw [hfirst, hsecond])
      intro hfalse
      rw [hfirst] at hfalse
      cases hfalse
    | true => exact absurd hmangled (hlocal hname hfirst hsecond)
  | true =>
    cases hsecond : defs.isFunctionLocal head' with
    | false => exact absurd hmangled.symm (hlocal hname' hsecond hfirst)
    | true =>
      rw [DefTable.mangled, DefTable.mangled, if_pos hfirst, if_pos hsecond,
        mangleLocalItemName, mangleLocalItemName, List.append_assoc, List.append_assoc]
        at hmangled
      obtain ⟨hnames, hnumbers⟩ := run_split (fun c => isIdentContinue c = true) hname hname'
        (leaves_cons.mpr (by rw [hsep]; decide)) (leaves_cons.mpr (by rw [hsep]; decide))
        hmangled
      apply h.distinct head head' hkinds' hmodule hnames (by rw [hfirst, hsecond])
      intro _
      exact decimal_injective (List.cons.inj hnumbers).2

theorem DefTable.WellNamed.atom_mangled {defs : DefTable Module} (h : defs.WellNamed)
    {head : DefId} (hkind : (defs.kind head).isType = true ∨ defs.kind head = .trait_) :
    Atom (defs.mangled head) := by
  have hname : isValidIdent (defs.name head) = true := by
    apply h.identifiers head
    rcases hkind with hkind | hkind
    · exact Or.inl hkind
    · exact Or.inr (Or.inl hkind)
  have hatom := atom_of_isValidIdent hname
  rw [DefTable.mangled]
  split
  · have hsep : Plain localItemIdSep ∧ ¬ Mark localItemIdSep ∧ localItemIdSep ≠ ' ' := by decide
    have hnumber := atom_decimal (defs.astId head).local_
    have hmem : ∀ c, c ∈ mangleLocalItemName (defs.name head) (defs.astId head) →
        c ∈ defs.name head ∨ c = localItemIdSep ∨ c ∈ decimal (defs.astId head).local_ := by
      intro c hc
      simpa [mangleLocalItemName] using hc
    refine ⟨by simp [mangleLocalItemName], ?_, ?_, ?_⟩
    · intro c hc
      rcases hmem c hc with hc | rfl | hc
      · exact hatom.plain c hc
      · exact hsep.1
      · exact hnumber.plain c hc
    · intro c hc
      rcases hmem c hc with hc | rfl | hc
      · exact hatom.unmarked c hc
      · exact hsep.2.1
      · exact hnumber.unmarked c hc
    · intro c hc
      rcases hmem c hc with hc | rfl | hc
      · exact hatom.unspaced c hc
      · exact hsep.2.2
      · exact hnumber.unspaced c hc
  · exact hatom

end Wado.Mangle
