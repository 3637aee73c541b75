/-
Fully qualified type names and the spelling a mangled name embeds them with.
-/
import Mathlib.Data.List.Basic
import Mathlib.Tactic.Common

namespace Wado.Mangle

abbrev Text := List Char

/-- A declaration in the definition table. -/
structure DefId where
  id : Nat
deriving DecidableEq, Repr

/-- A node: the parse that minted it and its number in the parse. -/
structure AstId where
  space : Nat
  local_ : Nat
deriving DecidableEq, Repr

/-- What a declaration declares, as far as a name can be headed by it. -/
inductive DefKind where
  | effect
  | struct
  | enum
  | flags
  | variant
  | trait_
  | newtype
  | resource
  | other
deriving DecidableEq, Repr

namespace DefKind

def isType : DefKind → Bool
  | .struct | .enum | .flags | .variant | .newtype | .resource => true
  | _ => false

/-- An effect row names an effect or a resource. -/
def isEffect : DefKind → Bool
  | .effect | .resource => true
  | _ => false

end DefKind

inductive RefKind where
  | shared
  | mut_
deriving DecidableEq, Repr

/-- What a mangle reads of the program: the definition table, which module each parse
belongs to, and how a module is displayed. -/
structure DefTable (Module : Type) where
  kind : DefId → DefKind
  module : DefId → Module
  name : DefId → Text
  astId : DefId → AstId
  isFunctionLocal : DefId → Bool
  moduleOfSpace : Nat → Module
  display : Module → Text

/-- The item a binder belongs to: an `impl` block, or an associated type of a trait. -/
structure BinderOwner where
  id : AstId
  assoc : Option Text
deriving DecidableEq, Repr

inductive EffectRef (Module : Type) where
  | concrete (head : DefId)
  | undeclared (name : Text) (moduleSource : Module)
  | param (name : Text)
  | var (id : Nat)

mutual

inductive FqTypeName (Module : Type) where
  | mk (reference : List RefKind) (head : TypeHead Module) (args : List (FqTypeName Module))

/-- What a name's head names. Declared heads are one when their declarations are. -/
inductive TypeHead (Module : Type) where
  | declared (head : DefId)
  | shape (module : Module) (name : Text)
  | builtin (name : Text)
  | unresolved (name : Text)
  | function (isMut : Bool) (params : List (FqTypeName Module)) (ret : FqTypeName Module)
      (effects : List (EffectRef Module))
  | paramBucket (module : Module) (name : Text)
  | binder (name : Text) (owner : Option BinderOwner)
  | tuple
  | projection (base : FqTypeName Module) (assoc : Text) (owningTrait : DefId)
      (traitArgs : Option (List (FqTypeName Module)))

end

variable {Module : Type}

def FqTypeName.reference : FqTypeName Module → List RefKind
  | .mk reference _ _ => reference

def FqTypeName.head : FqTypeName Module → TypeHead Module
  | .mk _ head _ => head

def FqTypeName.args : FqTypeName Module → List (FqTypeName Module)
  | .mk _ _ args => args

def TypeHead.isFunction : TypeHead Module → Bool
  | .function .. => true
  | _ => false

/-- A return that is spelled in parentheses: a function type behind no reference. -/
def FqTypeName.returnIsFunction (ret : FqTypeName Module) : Bool :=
  ret.head.isFunction && ret.reference.isEmpty

def decimal (n : Nat) : Text :=
  Nat.toDigits 10 n

/-- `parts` with `,` between them. -/
def join (parts : List Text) : Text :=
  [','].intercalate parts

def refPrefix : RefKind → Text
  | .shared => ['&']
  | .mut_ => ['&', 'm', 'u', 't', ' ']

def pushRefPrefix (out : Text) (kind : RefKind) : Text :=
  out ++ refPrefix kind

def mangleTupleType (elems : List Text) : Text :=
  ['['] ++ join elems ++ [']']

def fnKeyword (isMut : Bool) : Text :=
  if isMut then ['f', 'n', ' ', 'm', 'u', 't'] else ['f', 'n']

def mangleFnType (isMut : Bool) (params : List Text) (retType : Text) (returnIsFunction : Bool)
    (withClause : List Text) : Text :=
  fnKeyword isMut ++ ['('] ++ join params ++ [')', '-', '>'] ++
    (if returnIsFunction then ['('] ++ retType ++ [')'] else retType) ++
    (if withClause.isEmpty then [] else
      ['w', 'i', 't', 'h', '('] ++ join withClause ++ [')'])

/-- Separates a function-local declaration's name from its node's number. -/
def localItemIdSep : Char := '@'

def mangleLocalItemName (name : Text) (id : AstId) : Text :=
  name ++ [localItemIdSep] ++ decimal id.local_

/-- What an owner's number and its associated type are spelled as. -/
def ownerSuffix (owner : BinderOwner) : Text :=
  decimal owner.id.local_ ++ (match owner.assoc with
    | none => []
    | some assoc => [':', ':'] ++ assoc)

namespace DefTable

variable (defs : DefTable Module)

/-- A declaration's name, a function-local one's with its disambiguator. -/
def mangled (head : DefId) : Text :=
  if defs.isFunctionLocal head then mangleLocalItemName (defs.name head) (defs.astId head)
  else defs.name head

def mangleDeclared (module : Module) (name : Text) : Text :=
  defs.display module ++ ['/'] ++ name

def effectNamespace (module : Module) (interface : Text) : Text :=
  defs.display module ++ ['/'] ++ interface

/-- A row to be solved is spelled after its number. -/
def mangleEffectRef : EffectRef Module → Text
  | .concrete head => defs.effectNamespace (defs.module head) (defs.name head)
  | .undeclared name moduleSource => defs.effectNamespace moduleSource name
  | .param name => name
  | .var id => ['$', 'e'] ++ decimal id

/-- An owner is spelled after its module and its number there, never its parse. -/
def ownerMangled (owner : BinderOwner) : Text :=
  defs.display (defs.moduleOfSpace owner.id.space) ++ ['/'] ++ ownerSuffix owner

end DefTable

/-- Type arguments, spelled only when there are some. -/
def mangleArgs (args : List Text) : Text :=
  if args.isEmpty then [] else ['<'] ++ join args ++ ['>']

/-- A projection's trait arguments, spelled only when there are some. -/
def mangleTraitArgs (traitArgs : List Text) : Text :=
  if traitArgs.isEmpty then [] else ['['] ++ join traitArgs ++ [']']

mutual

def toMangled (defs : DefTable Module) : FqTypeName Module → Text
  | .mk reference head args =>
    reference.foldl pushRefPrefix [] ++ spellHead defs head (toMangledAll defs args)

/-- A head with its arguments; a function type's are not spelled. -/
def spellHead (defs : DefTable Module) : TypeHead Module → List Text → Text
  | .tuple, args => mangleTupleType args
  | .function isMut params ret effects, _ =>
    mangleFnType isMut (toMangledAll defs params) (toMangled defs ret) ret.returnIsFunction
      (effects.map defs.mangleEffectRef)
  | .declared head, args =>
    defs.mangleDeclared (defs.module head) (defs.mangled head) ++ mangleArgs args
  | .shape module name, args => defs.mangleDeclared module name ++ mangleArgs args
  | .paramBucket module name, args =>
    defs.display module ++ ['/'] ++ name ++ ['#', 'p', 'a', 'r', 'a', 'm'] ++ mangleArgs args
  | .builtin name, args => name ++ mangleArgs args
  | .unresolved name, args => name ++ mangleArgs args
  | .binder name none, args => name ++ mangleArgs args
  | .binder name (some owner), args =>
    name ++ ['#'] ++ defs.ownerMangled owner ++ mangleArgs args
  | .projection base assoc owningTrait traitArgs, args =>
    toMangled defs base ++ [':', ':'] ++ assoc ++ ['#'] ++
      defs.display (defs.module owningTrait) ++ ['/'] ++ defs.mangled owningTrait ++
      mangleTraitArgs (traitArgsMangled defs traitArgs) ++ mangleArgs args

def toMangledAll (defs : DefTable Module) : List (FqTypeName Module) → List Text
  | [] => []
  | name :: names => toMangled defs name :: toMangledAll defs names

/-- The spellings of the trait arguments written, none for those left unwritten. -/
def traitArgsMangled (defs : DefTable Module) : Option (List (FqTypeName Module)) → List Text
  | none => []
  | some traitArgs => toMangledAll defs traitArgs

end

theorem toMangledAll_eq_map (defs : DefTable Module) :
    ∀ names, toMangledAll defs names = names.map (toMangled defs)
  | [] => rfl
  | name :: names => by rw [toMangledAll, toMangledAll_eq_map defs names, List.map_cons]

theorem traitArgsMangled_eq (defs : DefTable Module) (traitArgs) :
    traitArgsMangled defs traitArgs = (traitArgs.getD []).map (toMangled defs) := by
  cases traitArgs with
  | none => rfl
  | some names => exact toMangledAll_eq_map defs names

end Wado.Mangle
