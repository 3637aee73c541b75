/-
Two names spelled alike are one, up to trait arguments left unwritten: any two readable
names of a program with distinct modules and declarations.
-/
import Wado.Mangle.FunctionTypes

namespace Wado.Mangle

open UniqueSplit List

variable {Module : Type} {defs : DefTable Module} {builtins : Text → Prop}

section WellNamed

variable (hnamed : defs.WellNamed) (hmodules : ∀ module, ModuleText (defs.display module))
  (hbuiltins : BuiltinNames builtins)

include hnamed hmodules hbuiltins

/-- Names spelled alike behind no reference are headed alike, where their parts are told
apart. -/
theorem heads_split {head head' : TypeHead Module} {args args' : List (FqTypeName Module)}
    (h : Readable defs builtins (.mk [] head args))
    (h' : Readable defs builtins (.mk [] head' args'))
    (hsmaller : ∀ a : FqTypeName Module, sizeOf a < sizeOf (FqTypeName.mk [] head args) →
      Readable defs builtins a → ∀ b, Readable defs builtins b → Cancels defs a b)
    {text text' : Text} (htext : Ends (.mk [] head args) text)
    (htext' : Ends (.mk [] head' args') text')
    (heq : spellHead defs head (args.map (toMangled defs)) ++ text =
      spellHead defs head' (args'.map (toMangled defs)) ++ text') :
    head.normal = head'.normal ∧ args.map FqTypeName.normal = args'.map FqTypeName.normal ∧
      text = text' := by
  have hfunctions : ∀ {head head' : TypeHead Module} {args args' : List (FqTypeName Module)}
      {text text' : Text}, Readable defs builtins (.mk [] head' args') → Follows text' →
      head.isFunction = true → head'.isFunction = false →
      spellHead defs head (args.map (toMangled defs)) ++ text ≠
        spellHead defs head' (args'.map (toMangled defs)) ++ text' := by
    intro head head' args args' text text' h' htext' hfunction hfunction' heq
    cases head with
    | function isMut params ret effects =>
      obtain ⟨head₀, args₀, hroot⟩ := (rooted _ h' rfl hfunction').exists_parts
      have hfollows := follows_members (rooted _ h' rfl hfunction').members htext'
      obtain ⟨-, -, hkeyword⟩ := root_opens hnamed hmodules hbuiltins hroot.isProjection
        hroot.isFunction hroot.readableHead args₀ hfollows
      have hwhole := hroot.text text'
      rw [toMangled_eq, flatMap_nil, nil_append, ← heq] at hwhole
      rw [spellHead, mangleFnType] at hwhole
      simp only [append_assoc, cons_append, nil_append] at hwhole
      exact hkeyword isMut _ hwhole.symm
    | _ => cases hfunction
  cases hfunction : head.isFunction with
  | true =>
    cases hfunction' : head'.isFunction with
    | false => exact absurd heq (hfunctions h' htext'.follows hfunction hfunction')
    | true =>
      have hcloses : ∀ {head : TypeHead Module} {args : List (FqTypeName Module)} {text : Text},
          head.isFunction = true → Ends (.mk [] head args) text → Closes text := by
        rintro head args text hfunction (htext | ⟨hnot, -⟩)
        · exact htext
        · rw [show (FqTypeName.mk [] head args).head = head from rfl, hfunction] at hnot
          cases hnot
      rw [Readable] at h h'
      obtain rfl := h.2.2 hfunction
      obtain rfl := h'.2.2 hfunction'
      cases head with
      | function isMut params ret effects =>
        cases head' with
        | function isMut' params' ret' effects' =>
          have hhead := h.1
          have hhead' := h'.1
          rw [ReadableHead, readableAll_iff] at hhead hhead'
          have hparams : Settled defs builtins params := by
            intro a ha
            apply hsmaller a _ (hhead.1 a ha)
            have hsmall : sizeOf a < sizeOf params := sizeOf_lt_of_mem ha
            simp only [FqTypeName.mk.sizeOf_spec, TypeHead.function.sizeOf_spec]
            omega
          have hret : Cancels defs ret ret' := by
            apply hsmaller ret _ hhead.2.1 ret' hhead'.2.1
            simp only [FqTypeName.mk.sizeOf_spec, TypeHead.function.sizeOf_spec]
            omega
          obtain ⟨hsame, hend⟩ := function_split hnamed hmodules hbuiltins h.1 h'.1 hparams
            hret (hcloses rfl htext) (hcloses rfl htext') heq
          exact ⟨hsame, rfl, hend⟩
        | _ => cases hfunction'
      | _ => cases hfunction
  | false =>
    cases hfunction' : head'.isFunction with
    | true => exact absurd heq.symm (hfunctions h htext.follows hfunction' hfunction)
    | false =>
      have hrooted := rooted _ h rfl hfunction
      have hrooted' := rooted _ h' rfl hfunction'
      obtain ⟨head₀, args₀, hroot⟩ := hrooted.exists_parts
      obtain ⟨head₁, args₁, hroot'⟩ := hrooted'.exists_parts
      have hwhole : spellHead defs head₀ (args₀.map (toMangled defs)) ++
            ((members (.mk [] head args)).flatMap (Member.text defs) ++ text) =
          spellHead defs head₁ (args₁.map (toMangled defs)) ++
            ((members (.mk [] head' args')).flatMap (Member.text defs) ++ text') := by
        rw [← hroot.text, ← hroot'.text, toMangled_eq, toMangled_eq]
        exact heq
      have hsettled : Settled defs builtins args₀ := fun a ha =>
        hsmaller a (hroot.argsSmaller a ha) (hroot.readableArgs a ha)
      obtain ⟨hheads, hargs, hbehind⟩ := root_split hnamed hmodules hbuiltins
        hroot.isProjection hroot'.isProjection hroot.isFunction hroot'.isFunction
        hroot.readableHead hroot'.readableHead hroot.readableArgs hroot'.readableArgs hsettled
        (follows_members hrooted.members htext.follows)
        (follows_members hrooted'.members htext'.follows) hwhole
      obtain ⟨hfolds, hend⟩ := members_split hnamed hmodules hbuiltins hrooted.members
        hrooted'.members (fun member hmember =>
          ⟨fun a ha => hsmaller a (hrooted.membersSmaller member hmember a (Or.inl ha))
            ((hrooted.members member hmember).traitArgs a ha),
          fun a ha => hsmaller a (hrooted.membersSmaller member hmember a (Or.inr ha))
            ((hrooted.members member hmember).args a ha)⟩)
        htext.follows htext'.follows htext.notMember htext'.notMember hbehind
      have hnormal := hroot.normal
      rw [hheads, hargs, hfolds, ← hroot'.normal, normal_mk, normal_mk] at hnormal
      obtain ⟨-, hhead, hlist⟩ := FqTypeName.mk.inj hnormal
      exact ⟨hhead, hlist, hend⟩

/-- Any two readable names are told apart, by induction on the size of the first. -/
theorem cancels : ∀ (bound : Nat) (a : FqTypeName Module), sizeOf a < bound →
    Readable defs builtins a → ∀ b, Readable defs builtins b → Cancels defs a b
  | 0, a, hbound, _, _, _ => absurd hbound (Nat.not_lt_zero _)
  | bound + 1, .mk reference head args, hbound, ha, .mk reference' head' args', hb => by
    intro text text' htext htext' heq
    rw [toMangled_eq, toMangled_eq, append_assoc, append_assoc] at heq
    have hbare : ∀ {reference : List RefKind} {head : TypeHead Module}
        {args : List (FqTypeName Module)}, Readable defs builtins (.mk reference head args) →
        Readable defs builtins (.mk [] head args) := by
      intro reference head args h
      rw [Readable] at h ⊢
      exact h
    obtain ⟨rfl, hheads⟩ := references_split
      (head_unreferenced hnamed hmodules hbuiltins (hbare ha) htext.follows)
      (head_unreferenced hnamed hmodules hbuiltins (hbare hb) htext'.follows) heq
    have hsmaller : ∀ a : FqTypeName Module, sizeOf a < sizeOf (FqTypeName.mk [] head args) →
        Readable defs builtins a → ∀ b, Readable defs builtins b → Cancels defs a b := by
      intro a hsize
      apply cancels bound a
      have hnil : sizeOf ([] : List RefKind) ≤ sizeOf reference := by
        cases reference with
        | nil => exact Nat.le_refl _
        | cons kind reference =>
          simp only [List.nil.sizeOf_spec, List.cons.sizeOf_spec]
          omega
      simp only [FqTypeName.mk.sizeOf_spec] at hsize hbound
      omega
    obtain ⟨hhead, hargs, hend⟩ := heads_split hnamed hmodules hbuiltins (hbare ha) (hbare hb)
      hsmaller htext htext' hheads
    exact ⟨by rw [normal_mk, normal_mk, hhead, hargs], hend⟩

/-- Readable names that differ in more than trait arguments left unwritten are spelled
differently. -/
theorem toMangled_ne {a b : FqTypeName Module} (ha : Readable defs builtins a)
    (hb : Readable defs builtins b) (hne : a.normal ≠ b.normal) :
    toMangled defs a ≠ toMangled defs b := by
  intro heq
  have hends : ∀ name : FqTypeName Module, Ends name [] := fun _ => Or.inl (Or.inl rfl)
  have htexts : toMangled defs a ++ [] = toMangled defs b ++ [] := by rw [heq]
  exact hne (cancels hnamed hmodules hbuiltins (sizeOf a + 1) a (Nat.lt_succ_self _) ha b hb [] []
    (hends a) (hends b) htexts).1

end WellNamed

/-- A program with a type, a trait and an effect, declared in one module. -/
def sampleDefs (display : Module → Text) (home : Module) (moduleOfSpace : Nat → Module) :
    DefTable Module where
  kind head := if head.id = 0 then .struct else if head.id = 1 then .trait_
    else if head.id = 2 then .effect else .other
  module _ := home
  name head := if head.id = 0 then ['L', 'i', 's', 't'] else if head.id = 1 then ['T', 'r']
    else ['E']
  astId head := ⟨0, head.id⟩
  isFunctionLocal _ := false
  moduleOfSpace := moduleOfSpace
  display := display

theorem sampleDefs_wellNamed {display : Module → Text} (home : Module)
    {moduleOfSpace : Nat → Module} (hdisplay : Function.Injective display)
    (hparsed : Function.Injective moduleOfSpace) :
    (sampleDefs display home moduleOfSpace).WellNamed := by
  have hcases : ∀ id : Nat, id = 0 ∨ id = 1 ∨ id = 2 ∨ 2 < id := by
    intro id
    omega
  have hother : ∀ {id : Nat}, 2 < id →
      (sampleDefs display home moduleOfSpace).kind ⟨id⟩ = .other := by
    intro id hid
    have h0 : id ≠ 0 := by omega
    have h1 : id ≠ 1 := by omega
    have h2 : id ≠ 2 := by omega
    simp [sampleDefs, h0, h1, h2]
  refine ⟨hdisplay, hparsed, ?_, ?_, ?_⟩
  · rintro ⟨id⟩ hkind
    rcases hcases id with rfl | rfl | rfl | hid
    · rfl
    · rfl
    · rfl
    · rw [hother hid] at hkind
      rcases hkind with hkind | hkind | hkind <;> cases hkind
  · rintro ⟨id⟩ ⟨id'⟩ hkinds
    rcases hcases id with rfl | rfl | rfl | hid
    · rcases hcases id' with rfl | rfl | rfl | hid'
      · exact fun _ _ _ _ => rfl
      · rcases hkinds with ⟨-, hkind⟩ | ⟨hkind, -⟩ | ⟨hkind, -⟩ <;> cases hkind
      · rcases hkinds with ⟨-, hkind⟩ | ⟨hkind, -⟩ | ⟨hkind, -⟩ <;> cases hkind
      · rw [hother hid'] at hkinds
        rcases hkinds with ⟨-, hkind⟩ | ⟨-, hkind⟩ | ⟨-, hkind⟩ <;> cases hkind
    · rcases hcases id' with rfl | rfl | rfl | hid'
      · rcases hkinds with ⟨hkind, -⟩ | ⟨-, hkind⟩ | ⟨hkind, -⟩ <;> cases hkind
      · exact fun _ _ _ _ => rfl
      · rcases hkinds with ⟨hkind, -⟩ | ⟨-, hkind⟩ | ⟨hkind, -⟩ <;> cases hkind
      · rw [hother hid'] at hkinds
        rcases hkinds with ⟨-, hkind⟩ | ⟨-, hkind⟩ | ⟨-, hkind⟩ <;> cases hkind
    · rcases hcases id' with rfl | rfl | rfl | hid'
      · rcases hkinds with ⟨hkind, -⟩ | ⟨hkind, -⟩ | ⟨-, hkind⟩ <;> cases hkind
      · rcases hkinds with ⟨hkind, -⟩ | ⟨hkind, -⟩ | ⟨-, hkind⟩ <;> cases hkind
      · exact fun _ _ _ _ => rfl
      · rw [hother hid'] at hkinds
        rcases hkinds with ⟨-, hkind⟩ | ⟨-, hkind⟩ | ⟨-, hkind⟩ <;> cases hkind
    · rw [hother hid] at hkinds
      rcases hkinds with ⟨hkind, -⟩ | ⟨hkind, -⟩ | ⟨hkind, -⟩ <;> cases hkind
  · rintro ⟨id⟩ _
    rfl

/-- A name alone, behind no reference and with no arguments. -/
def ofHead (head : TypeHead Module) : FqTypeName Module :=
  .mk [] head []

/-- Numbered modules, displayed by a letter and the number. -/
def numberedDisplay (module : Nat) : Text :=
  'm' :: decimal module

theorem numberedDisplay_text (module : Nat) : ModuleText (numberedDisplay module) := by
  have hletter : ∀ c ∈ numberedDisplay module, isIdentContinue c = true := by
    intro c hc
    rcases mem_cons.mp hc with rfl | hc
    · rfl
    · exact isIdentContinue_of_mem_decimal hc
  have hatom := atom_of_isIdentContinue (cons_ne_nil _ _) hletter
  refine ⟨hatom.plain, ?_⟩
  intro hstarts
  exact hatom.unspaced ' ' (hstarts.subset (by decide)) rfl

theorem numberedDisplay_injective : Function.Injective numberedDisplay := by
  intro module module' heq
  exact decimal_injective (List.cons.inj heq).2

/-- A list of integers and a mutable reference to it. -/
theorem toMangled_ne_sample : toMangled (sampleDefs numberedDisplay 0 id)
        (.mk [] (.declared ⟨0⟩) [ofHead (.builtin ['i', '3', '2'])]) ≠
      toMangled (sampleDefs numberedDisplay 0 id)
        (.mk [.mut_] (.declared ⟨0⟩) [ofHead (.builtin ['i', '3', '2'])]) := by
  have hbuiltins : BuiltinNames (· = ['i', '3', '2']) := by
    rintro name rfl
    exact Or.inr (atom_of_isValidIdent (by decide))
  have hreadable : ∀ reference, Readable (sampleDefs numberedDisplay 0 id) (· = ['i', '3', '2'])
      (.mk reference (.declared ⟨0⟩) [ofHead (.builtin ['i', '3', '2'])]) := by
    intro reference
    simp [Readable, ReadableHead, ReadableAll, ofHead, TypeHead.isFunction, sampleDefs,
      DefKind.isType]
  refine toMangled_ne (sampleDefs_wellNamed 0 numberedDisplay_injective Function.injective_id)
    numberedDisplay_text hbuiltins (hreadable []) (hreadable [.mut_]) ?_
  rw [normal_mk, normal_mk]
  intro hsame
  cases (FqTypeName.mk.inj hsame).1

/-- One module, displayed by its path. -/
def pathDefs : DefTable Text :=
  sampleDefs id ['.', '/', 'a', '.', 'w', 'a', 'd', 'o'] decimal

/-- A head in the module, with nothing before or after it. -/
def shapeIn (module name : Text) : FqTypeName Text :=
  ofHead (.shape module name)

/-- A function type that takes nothing. -/
def functionOf (ret : FqTypeName Text) (effects : List (EffectRef Text)) : FqTypeName Text :=
  ofHead (.function false [] ret effects)

/-- The associated type `Out` of a name, through the trait. -/
def outOf (base : FqTypeName Text) (traitArgs : Option (List (FqTypeName Text))) :
    FqTypeName Text :=
  ofHead (.projection base ['O', 'u', 't'] ⟨1⟩ traitArgs)

def pointer (kind : RefKind) : FqTypeName Text → FqTypeName Text
  | .mk reference head args => .mk (kind :: reference) head args

def binderT : FqTypeName Text :=
  ofHead (.binder ['T'] none)

def unitType : FqTypeName Text :=
  ofHead (.builtin unitTypeName)

/-- Distinct names spelled alike, in a program whose modules, declarations and nodes are
distinct: a shape fused with its arguments, or named as a declaration; modules a separator or
a reference stands in; a clause behind a reference to a function type; a projection off a
reference or a function type; a function type's arguments; trait arguments left unwritten; a
binder named as a builtin; an effect that is and one that is not declared. -/
theorem spelled_alike : pathDefs.WellNamed ∧ ∀ pair ∈ ([
      (shapeIn ['.', '/', 'a', '.', 'w', 'a', 'd', 'o'] ['L', 'i', 's', 't', '<', 'i', '3', '2',
        '>'],
        .mk [] (.declared ⟨0⟩) [ofHead (.builtin ['i', '3', '2'])]),
      (shapeIn ['.', '/', 'a', '.', 'w', 'a', 'd', 'o'] ['L', 'i', 's', 't'],
        ofHead (.declared ⟨0⟩)),
      (.mk [] .tuple [shapeIn ['.', '/', 'b'] ['X'], shapeIn ['.', '/', 'a'] ['Y']],
        .mk [] .tuple [shapeIn ['.', '/', 'b', '/', 'X', ',', '.', '/', 'a'] ['Y']]),
      (pointer .shared (shapeIn ['m', 'u', 't', ' ', '.', '/', 'a'] ['Y']),
        pointer .mut_ (shapeIn ['.', '/', 'a'] ['Y'])),
      (functionOf (pointer .shared (functionOf unitType [.concrete ⟨2⟩])) [],
        functionOf (pointer .shared (functionOf unitType [])) [.concrete ⟨2⟩]),
      (pointer .shared (outOf binderT none), outOf (pointer .shared binderT) none),
      (outOf (functionOf binderT []) none, functionOf (outOf binderT none) []),
      (functionOf unitType [], .mk [] (.function false [] unitType []) [unitType]),
      (outOf binderT none, outOf binderT (some [])),
      (ofHead (.binder ['A', 'r', 'r', 'a', 'y'] none), ofHead
        (.builtin ['A', 'r', 'r', 'a', 'y'])),
      (functionOf unitType [.concrete ⟨2⟩],
        functionOf unitType [.undeclared ['E'] ['.', '/', 'a', '.', 'w', 'a', 'd', 'o']])] :
      List (FqTypeName Text × FqTypeName Text)),
      pair.1 ≠ pair.2 ∧ toMangled pathDefs pair.1 = toMangled pathDefs pair.2 := by
  refine ⟨sampleDefs_wellNamed _ Function.injective_id (fun _ _ => decimal_injective), ?_⟩
  intro pair hpair
  simp only [List.mem_cons, List.not_mem_nil, or_false] at hpair
  rcases hpair with rfl | rfl | rfl | rfl | rfl | rfl | rfl | rfl | rfl | rfl | rfl
  all_goals
    refine ⟨?_, by decide⟩
    intro hfalse
    simp [shapeIn, ofHead, functionOf, pointer, outOf, binderT, unitType] at hfalse

end Wado.Mangle
