/-
When two type names may name one type: the substitutions that make them one, and the test
that asks whether there are any.
-/
import Mathlib.Data.List.Forall2
import Wado.Mangle.Names

namespace Wado.Mangle

open List

section Same

variable {Module : Type} [DecidableEq Module]

deriving instance DecidableEq for EffectRef

mutual

def sameName : FqTypeName Module → FqTypeName Module → Bool
  | .mk reference head args, .mk reference' head' args' =>
    decide (reference = reference') && sameHead head head' && sameNames args args'

def sameHead : TypeHead Module → TypeHead Module → Bool
  | .declared head, .declared head' => decide (head = head')
  | .shape module name, .shape module' name' => decide (module = module') && decide (name = name')
  | .builtin name, .builtin name' => decide (name = name')
  | .unresolved name, .unresolved name' => decide (name = name')
  | .function isMut params ret effects, .function isMut' params' ret' effects' =>
    decide (isMut = isMut') && sameNames params params' && sameName ret ret' &&
      decide (effects = effects')
  | .paramBucket module name, .paramBucket module' name' =>
    decide (module = module') && decide (name = name')
  | .binder name owner, .binder name' owner' => decide (name = name') && decide (owner = owner')
  | .tuple, .tuple => true
  | .projection base assoc owningTrait traitArgs,
      .projection base' assoc' owningTrait' traitArgs' =>
    sameName base base' && decide (assoc = assoc') && decide (owningTrait = owningTrait') &&
      sameOptional traitArgs traitArgs'
  | _, _ => false

def sameNames : List (FqTypeName Module) → List (FqTypeName Module) → Bool
  | [], [] => true
  | name :: names, name' :: names' => sameName name name' && sameNames names names'
  | _, _ => false

def sameOptional : Option (List (FqTypeName Module)) → Option (List (FqTypeName Module)) → Bool
  | none, none => true
  | some names, some names' => sameNames names names'
  | _, _ => false

end

mutual

theorem sameName_iff : ∀ a b : FqTypeName Module, sameName a b = true ↔ a = b
  | .mk reference head args, .mk reference' head' args' => by
    simp [sameName, sameHead_iff head, sameNames_iff args, and_assoc]

theorem sameHead_iff : ∀ a b : TypeHead Module, sameHead a b = true ↔ a = b
  | .declared head, b => by cases b <;> simp [sameHead]
  | .shape module name, b => by cases b <;> simp [sameHead]
  | .builtin name, b => by cases b <;> simp [sameHead]
  | .unresolved name, b => by cases b <;> simp [sameHead]
  | .function isMut params ret effects, b => by
    cases b <;> simp [sameHead, sameNames_iff params, sameName_iff ret, and_assoc]
  | .paramBucket module name, b => by cases b <;> simp [sameHead]
  | .binder name owner, b => by cases b <;> simp [sameHead]
  | .tuple, b => by cases b <;> simp [sameHead]
  | .projection base assoc owningTrait traitArgs, b => by
    cases b <;> simp [sameHead, sameName_iff base, sameOptional_iff traitArgs, and_assoc]

theorem sameNames_iff : ∀ as bs : List (FqTypeName Module), sameNames as bs = true ↔ as = bs
  | [], bs => by cases bs <;> simp [sameNames]
  | a :: as, bs => by cases bs <;> simp [sameNames, sameName_iff a, sameNames_iff as]

theorem sameOptional_iff : ∀ a b : Option (List (FqTypeName Module)),
    sameOptional a b = true ↔ a = b
  | none, b => by cases b <;> simp [sameOptional]
  | some names, b => by cases b <;> simp [sameOptional, sameNames_iff names]

end

instance : DecidableEq (TypeHead Module) :=
  fun a b => decidable_of_iff (sameHead a b = true) (sameHead_iff a b)

instance : DecidableEq (FqTypeName Module) :=
  fun a b => decidable_of_iff (sameName a b = true) (sameName_iff a b)

end Same

section Lining

variable {α : Type}

/-- The items of two lists that line up from both ends around an item of the first. -/
def lineUp (spreadSide : List α) (at_ : Nat) (plain : List α) : Option (List (α × α)) :=
  let after := spreadSide.length - at_ - 1
  if at_ + after ≤ plain.length then
    some ((spreadSide.take at_).zip (plain.take at_) ++
      (spreadSide.drop (at_ + 1)).zip (plain.drop (plain.length - after)))
  else none

/-- The items of two lists that line up, around the first spread that there is; `none` where
the lengths do not fit. -/
def lined (isSpread : α → Bool) (as bs : List α) : Option (List (α × α)) :=
  match as.findIdx? isSpread, bs.findIdx? isSpread with
  | some at_, _ => lineUp as at_ bs
  | none, some at_ => lineUp bs at_ as
  | none, none => if as.length = bs.length then some (as.zip bs) else none

variable {pairs : List (α × α)}

theorem mem_lineUp {spreadSide plain : List α} {at_ : Nat}
    (h : lineUp spreadSide at_ plain = some pairs) {p : α × α} (hp : p ∈ pairs) :
    p.1 ∈ spreadSide ∧ p.2 ∈ plain := by
  unfold lineUp at h
  dsimp only at h
  split at h
  · obtain rfl := Option.some.inj h
    rcases mem_append.mp hp with hp | hp
    · obtain ⟨hleft, hright⟩ := of_mem_zip hp
      exact ⟨mem_of_mem_take hleft, mem_of_mem_take hright⟩
    · obtain ⟨hleft, hright⟩ := of_mem_zip hp
      exact ⟨mem_of_mem_drop hleft, mem_of_mem_drop hright⟩
  · cases h

variable {isSpread : α → Bool}

theorem mem_lined {as bs : List α}
    (h : lined isSpread as bs = some pairs) {p : α × α} (hp : p ∈ pairs) :
    (p.1 ∈ as ∧ p.2 ∈ bs) ∨ (p.1 ∈ bs ∧ p.2 ∈ as) := by
  unfold lined at h
  split at h
  · exact .inl (mem_lineUp h hp)
  · exact .inr (mem_lineUp h hp)
  · split at h
    · obtain rfl := Option.some.inj h
      exact .inl (of_mem_zip hp)
    · cases h

theorem findIdx?_split {as : List α} {at_ : Nat} (h : as.findIdx? isSpread = some at_) :
    ∃ before item after, as = before ++ item :: after ∧ before.length = at_ ∧
      isSpread item = true ∧ ∀ x ∈ before, isSpread x = false := by
  obtain ⟨hlt, hitem, hbefore⟩ := List.findIdx?_eq_some_iff_getElem.mp h
  refine ⟨as.take at_, as[at_], as.drop (at_ + 1), ?_, ?_, hitem, ?_⟩
  · rw [← drop_eq_getElem_cons hlt, take_append_drop]
  · rw [length_take]
    exact Nat.min_eq_left (Nat.le_of_lt hlt)
  · intro x hx
    obtain ⟨j, hj, rfl⟩ := mem_take_iff_getElem.mp hx
    exact eq_false_of_ne_true (hbefore j (by omega))

theorem lineUp_eq_some {before after plain : List α} {item : α} :
    lineUp (before ++ item :: after) before.length plain = some pairs ↔
      ∃ first mid last, plain = first ++ mid ++ last ∧ first.length = before.length ∧
        last.length = after.length ∧ pairs = before.zip first ++ after.zip last := by
  have hafter : (before ++ item :: after).length - before.length - 1 = after.length := by
    simp
  have htake : (before ++ item :: after).take before.length = before := take_left
  have hdrop : (before ++ item :: after).drop (before.length + 1) = after := by
    rw [drop_append]
    simp
  unfold lineUp
  dsimp only
  rw [hafter, htake, hdrop]
  constructor
  · intro h
    split at h
    · rename_i hle
      refine ⟨plain.take before.length,
        (plain.drop before.length).take (plain.length - after.length - before.length),
        plain.drop (plain.length - after.length), ?_, ?_, ?_, (Option.some.inj h).symm⟩
      · have hlast : plain.drop (plain.length - after.length) = (plain.drop before.length).drop
            (plain.length - after.length - before.length) := by
          rw [drop_drop]
          congr 1
          omega
        rw [hlast, append_assoc, take_append_drop, take_append_drop]
      · rw [length_take]
        omega
      · rw [length_drop]
        omega
    · cases h
  · rintro ⟨first, mid, last, rfl, hfirst, hlast, rfl⟩
    have hlength : (first ++ mid ++ last).length = before.length + mid.length + after.length := by
      rw [length_append, length_append, hfirst, hlast]
    rw [if_pos (by omega), ← hfirst]
    have htail : (first ++ mid ++ last).drop ((first ++ mid ++ last).length - after.length) =
        last := by
      have hcut : (first ++ mid ++ last).length - after.length = (first ++ mid).length := by
        rw [length_append, length_append, hlast]
        omega
      rw [hcut, drop_left]
    rw [htail, append_assoc, take_left]

end Lining

section Unifies

variable {Module : Type}

namespace BinderOwner

/-- Whether this owns a generic associated type's parameter. -/
def isFamily (owner : BinderOwner) : Bool := owner.assoc.isSome

end BinderOwner

namespace FqTypeName

/-- Whether a name is decided by a substitution: a binder, not of a family, or a projection. -/
def isOpen (name : FqTypeName Module) : Bool :=
  match name.head with
  | .binder _ owner => !owner.any BinderOwner.isFamily
  | .projection .. => true
  | _ => false

/-- Whether this is the pack of some name spread in a tuple. -/
def isPackSpread (name : FqTypeName Module) : Bool :=
  match name.head with
  | .binder text _ => ['.', '.'].isPrefixOf text
  | _ => false

theorem sizeOf_args_lt (name : FqTypeName Module) {arg : FqTypeName Module}
    (h : arg ∈ name.args) : sizeOf arg < sizeOf name := by
  cases name with
  | mk reference head args =>
    have hlt := sizeOf_lt_of_mem h
    change sizeOf arg < sizeOf args at hlt
    simp only [mk.sizeOf_spec]
    omega

theorem sizeOf_lined_lt {a b : FqTypeName Module}
    {pairs : List (FqTypeName Module × FqTypeName Module)}
    (h : lined isPackSpread a.args b.args = some pairs) {p : FqTypeName Module × FqTypeName Module}
    (hp : p ∈ pairs) : sizeOf p.1 + sizeOf p.2 < sizeOf a + sizeOf b := by
  rcases mem_lined h hp with ⟨hleft, hright⟩ | ⟨hleft, hright⟩
  · exact Nat.add_lt_add (sizeOf_args_lt a hleft) (sizeOf_args_lt b hright)
  · rw [Nat.add_comm (sizeOf a)]
    exact Nat.add_lt_add (sizeOf_args_lt b hleft) (sizeOf_args_lt a hright)

/-- Whether some substitution for either side's binders and projections makes the two names
one type. -/
def unifiesWith [DecidableEq Module] (self other : FqTypeName Module) : Bool :=
  if self.isOpen then self.reference.isPrefixOf other.reference
  else if other.isOpen then other.reference.isPrefixOf self.reference
  else if self.reference ≠ other.reference ∨ self.head ≠ other.head then false
  else
    match _hpairs : lined isPackSpread self.args other.args with
    | none => false
    | some pairs => pairs.attach.all fun p => unifiesWith p.1.1 p.1.2
termination_by sizeOf self + sizeOf other
decreasing_by exact sizeOf_lined_lt _hpairs p.2

end FqTypeName

end Unifies

section Instances

variable {Module : Type}

mutual

/-- `target` is the name with a type for each open occurrence and a run of types for each
pack spread. -/
def Instance : FqTypeName Module → FqTypeName Module → Prop
  | .mk reference head args, target =>
    if (FqTypeName.mk reference head args).isOpen then reference <+: target.reference
    else target.reference = reference ∧ InstanceHead head target.head ∧ InstanceAll args target.args

/-- A function type's signature is instantiated; every other head names itself. -/
def InstanceHead : TypeHead Module → TypeHead Module → Prop
  | .function isMut params ret effects, target =>
    ∃ params' ret', target = .function isMut params' ret' effects ∧
      InstanceAll params params' ∧ Instance ret ret'
  | head, target => target = head

def InstanceAll : List (FqTypeName Module) → List (FqTypeName Module) → Prop
  | [], targets => targets = []
  | name :: names, targets =>
    ∃ run rest, targets = run ++ rest ∧ InstanceAll names rest ∧
      (name.isPackSpread = true ∨ ∃ target, run = [target] ∧ Instance name target)

end

/-- Some substitution, of each side's occurrences alone, makes the two names one type. -/
def Overlaps (a b : FqTypeName Module) : Prop := ∃ target, Instance a target ∧ Instance b target

mutual

/-- A name is an instance of itself. -/
theorem instance_self : ∀ name : FqTypeName Module, Instance name name
  | .mk reference head args => by
    rw [Instance]
    split
    · exact prefix_rfl
    · exact ⟨rfl, instanceHead_self head, instanceAll_self args⟩

theorem instanceHead_self : ∀ head : TypeHead Module, InstanceHead head head
  | .function isMut params ret effects => by
    rw [InstanceHead]
    exact ⟨params, ret, rfl, instanceAll_self params, instance_self ret⟩
  | .declared _ => by simp [InstanceHead]
  | .shape _ _ => by simp [InstanceHead]
  | .builtin _ => by simp [InstanceHead]
  | .unresolved _ => by simp [InstanceHead]
  | .paramBucket _ _ => by simp [InstanceHead]
  | .binder _ _ => by simp [InstanceHead]
  | .tuple => by simp [InstanceHead]
  | .projection _ _ _ _ => by simp [InstanceHead]

theorem instanceAll_self : ∀ names : List (FqTypeName Module), InstanceAll names names
  | [] => by rw [InstanceAll]
  | name :: names => by
    rw [InstanceAll]
    exact ⟨[name], names, rfl, instanceAll_self names, .inr ⟨name, rfl, instance_self name⟩⟩

end

variable {head target : TypeHead Module}

theorem InstanceHead.eq_of_not_function
    (h : InstanceHead head target) (hfunction : head.isFunction = false) : target = head := by
  cases head with
  | function isMut params ret effects => cases hfunction
  | _ =>
    rw [InstanceHead] at h
    · exact h
    all_goals simp

theorem InstanceHead.isFunction (h : InstanceHead head target) :
    target.isFunction = head.isFunction := by
  cases hhead : head.isFunction with
  | false => rw [h.eq_of_not_function hhead, hhead]
  | true =>
    cases head with
    | function isMut params ret effects =>
      rw [InstanceHead] at h
      obtain ⟨params', ret', rfl, -, -⟩ := h
      rfl
    | _ => cases hhead

variable {name target : FqTypeName Module}

theorem instance_of_open (hopen : name.isOpen = true) :
    Instance name target ↔ name.reference <+: target.reference := by
  cases name with
  | mk reference head args =>
    rw [Instance, if_pos hopen]
    rfl

theorem instance_of_rigid (hopen : name.isOpen = false) :
    Instance name target ↔ target.reference = name.reference ∧
      InstanceHead name.head target.head ∧ InstanceAll name.args target.args := by
  cases name with
  | mk reference head args =>
    rw [Instance, if_neg (by rw [hopen]; exact Bool.false_ne_true)]
    rfl

variable {names names' targets : List (FqTypeName Module)}

theorem instanceAll_append :
    InstanceAll (names ++ names') targets ↔ ∃ first last, targets = first ++ last ∧
      InstanceAll names first ∧ InstanceAll names' last := by
  induction names generalizing targets with
  | nil =>
    constructor
    · intro h
      exact ⟨[], targets, rfl, by rw [InstanceAll], h⟩
    · rintro ⟨first, last, rfl, hfirst, h⟩
      rw [InstanceAll] at hfirst
      rw [hfirst]
      exact h
  | cons name names ih =>
    rw [cons_append, InstanceAll]
    constructor
    · rintro ⟨run, rest, rfl, hrest, hrun⟩
      obtain ⟨first, last, rfl, hfirst, hlast⟩ := ih.mp hrest
      refine ⟨run ++ first, last, (append_assoc _ _ _).symm, ?_, hlast⟩
      rw [InstanceAll]
      exact ⟨run, first, rfl, hfirst, hrun⟩
    · rintro ⟨first, last, rfl, hfirst, hlast⟩
      rw [InstanceAll] at hfirst
      obtain ⟨run, rest, rfl, hrest, hrun⟩ := hfirst
      exact ⟨run, rest ++ last, append_assoc _ _ _, ih.mpr ⟨rest, last, rfl, hrest, hlast⟩,
        hrun⟩

/-- Names that each overlap the one beside it have one list of types. -/
theorem instanceAll_of_zip {names names' : List (FqTypeName Module)}
    (hlength : names.length = names'.length)
    (hpairs : ∀ p ∈ names.zip names', Overlaps p.1 p.2) :
    ∃ targets, InstanceAll names targets ∧ InstanceAll names' targets := by
  induction names generalizing names' with
  | nil =>
    obtain rfl := length_eq_zero_iff.mp hlength.symm
    exact ⟨[], by rw [InstanceAll], by rw [InstanceAll]⟩
  | cons name names ih =>
    cases names' with
    | nil => cases hlength
    | cons name' names' =>
      obtain ⟨targets, h, h'⟩ := ih (Nat.succ.inj hlength) fun p hp =>
        hpairs p (mem_cons_of_mem _ hp)
      obtain ⟨target, ht, ht'⟩ := hpairs (name, name') mem_cons_self
      refine ⟨target :: targets, ?_, ?_⟩
      · rw [InstanceAll]
        exact ⟨[target], targets, rfl, h, .inr ⟨target, rfl, ht⟩⟩
      · rw [InstanceAll]
        exact ⟨[target], targets, rfl, h', .inr ⟨target, rfl, ht'⟩⟩

theorem forall₂_of_instanceAll {names targets : List (FqTypeName Module)}
    (h : InstanceAll names targets) (hplain : ∀ name ∈ names, name.isPackSpread = false) :
    List.Forall₂ Instance names targets := by
  induction names generalizing targets with
  | nil =>
    rw [InstanceAll] at h
    rw [h]
    exact .nil
  | cons name names ih =>
    rw [InstanceAll] at h
    obtain ⟨run, rest, rfl, hrest, hspread | ⟨target, rfl, htarget⟩⟩ := h
    · rw [hplain name mem_cons_self] at hspread
      cases hspread
    · exact .cons htarget (ih hrest fun other hother =>
        hplain other (mem_cons_of_mem _ hother))

theorem overlaps_of_zip
    (h : List.Forall₂ Instance names targets) (h' : List.Forall₂ Instance names' targets) :
    ∀ p ∈ names.zip names', Overlaps p.1 p.2 := by
  induction h generalizing names' with
  | nil =>
    intro p hp
    cases hp
  | cons hhead _ ih =>
    cases h' with
    | cons hhead' htail' =>
      intro p hp
      rcases mem_cons.mp hp with rfl | hp
      · exact ⟨_, hhead, hhead'⟩
      · exact ih htail' p hp

end Instances

section Exact

variable {Module : Type} [DecidableEq Module]

theorem overlaps_symm {a b : FqTypeName Module} (h : Overlaps a b) : Overlaps b a := by
  obtain ⟨target, ha, hb⟩ := h
  exact ⟨target, hb, ha⟩

theorem unifiesWith_of_open {a b : FqTypeName Module} (ha : a.isOpen = true) :
    a.unifiesWith b = true ↔ a.reference <+: b.reference := by
  rw [FqTypeName.unifiesWith, if_pos ha, isPrefixOf_iff_prefix]

theorem unifiesWith_of_rigid_open {a b : FqTypeName Module} (ha : a.isOpen = false)
    (hb : b.isOpen = true) : a.unifiesWith b = true ↔ b.reference <+: a.reference := by
  rw [FqTypeName.unifiesWith, if_neg (by rw [ha]; exact Bool.false_ne_true), if_pos hb,
    isPrefixOf_iff_prefix]

theorem unifiesWith_of_rigid {a b : FqTypeName Module} (ha : a.isOpen = false)
    (hb : b.isOpen = false) :
    a.unifiesWith b = true ↔ a.reference = b.reference ∧ a.head = b.head ∧
      ∃ pairs, lined FqTypeName.isPackSpread a.args b.args = some pairs ∧
        ∀ p ∈ pairs, p.1.unifiesWith p.2 = true := by
  rw [FqTypeName.unifiesWith, if_neg (by rw [ha]; exact Bool.false_ne_true),
    if_neg (by rw [hb]; exact Bool.false_ne_true)]
  by_cases hsame : a.reference = b.reference ∧ a.head = b.head
  · rw [if_neg (by rw [hsame.1, hsame.2]; simp)]
    split
    · rename_i hnone
      rw [hnone]
      simp
    · rename_i pairs hpairs
      rw [hpairs]
      simp [hsame]
  · rw [if_pos (by tauto)]
    constructor
    · intro h
      cases h
    · rintro ⟨href, hhead, -⟩
      exact absurd ⟨href, hhead⟩ hsame

/-- Lists whose lined up names overlap have one list of types. -/
theorem instanceAll_of_lined {as bs : List (FqTypeName Module)}
    {pairs : List (FqTypeName Module × FqTypeName Module)}
    (h : lined FqTypeName.isPackSpread as bs = some pairs)
    (hpairs : ∀ p ∈ pairs, Overlaps p.1 p.2) :
    ∃ targets, InstanceAll as targets ∧ InstanceAll bs targets := by
  have hspread : ∀ {spreadSide plain : List (FqTypeName Module)} {at_ : Nat},
      spreadSide.findIdx? FqTypeName.isPackSpread = some at_ →
      lineUp spreadSide at_ plain = some pairs →
      ∃ targets, InstanceAll spreadSide targets ∧ InstanceAll plain targets := by
    intro spreadSide plain at_ hat hline
    obtain ⟨before, item, after, rfl, rfl, hitem, -⟩ := findIdx?_split hat
    obtain ⟨first, mid, last, rfl, hfirst, hlast, rfl⟩ := lineUp_eq_some.mp hline
    obtain ⟨heads, hbefore, hheads⟩ := instanceAll_of_zip hfirst.symm fun p hp =>
      hpairs p (mem_append_left _ hp)
    obtain ⟨tails, hafter, htails⟩ := instanceAll_of_zip hlast.symm fun p hp =>
      hpairs p (mem_append_right _ hp)
    -- The spread stands for the elements in between.
    refine ⟨heads ++ (mid ++ tails), ?_, ?_⟩
    · refine instanceAll_append.mpr ⟨heads, mid ++ tails, rfl, hbefore, ?_⟩
      rw [InstanceAll]
      exact ⟨mid, tails, rfl, hafter, .inl hitem⟩
    · rw [append_assoc]
      refine instanceAll_append.mpr ⟨heads, mid ++ tails, rfl, hheads, ?_⟩
      exact instanceAll_append.mpr ⟨mid, tails, rfl, instanceAll_self mid, htails⟩
  unfold lined at h
  split at h
  · rename_i hat
    exact hspread hat h
  · rename_i hat
    obtain ⟨targets, hb, ha⟩ := hspread hat h
    exact ⟨targets, ha, hb⟩
  · split at h
    · rename_i hlength
      obtain rfl := Option.some.inj h
      exact instanceAll_of_zip hlength hpairs
    · cases h

/-- How many pack spreads there are. -/
def spreads (names : List (FqTypeName Module)) : Nat := names.countP FqTypeName.isPackSpread

omit [DecidableEq Module] in
theorem plain_of_spreads {names : List (FqTypeName Module)} (h : spreads names = 0) :
    ∀ name ∈ names, name.isPackSpread = false := fun name hname =>
  eq_false_of_ne_true (countP_eq_zero.mp h name hname)

omit [DecidableEq Module] in
/-- With one spread at most, lists of one list of types line up. -/
theorem lined_of_instanceAll {as bs targets : List (FqTypeName Module)}
    (hone : spreads as + spreads bs ≤ 1) (ha : InstanceAll as targets)
    (hb : InstanceAll bs targets) :
    ∃ pairs, lined FqTypeName.isPackSpread as bs = some pairs ∧ ∀ p ∈ pairs, Overlaps p.1 p.2 := by
  have hspread : ∀ {spreadSide plain : List (FqTypeName Module)} {at_ : Nat},
      spreads spreadSide + spreads plain ≤ 1 → InstanceAll spreadSide targets →
      InstanceAll plain targets → spreadSide.findIdx? FqTypeName.isPackSpread = some at_ →
      ∃ pairs, lineUp spreadSide at_ plain = some pairs ∧ ∀ p ∈ pairs, Overlaps p.1 p.2 := by
    intro spreadSide plain at_ hone hs hp hat
    obtain ⟨before, item, after, rfl, rfl, hitem, hbefore⟩ := findIdx?_split hat
    unfold spreads at hone
    rw [countP_append, countP_cons_of_pos hitem] at hone
    have hafter : ∀ x ∈ after, x.isPackSpread = false := plain_of_spreads (by
      unfold spreads
      omega)
    have hplain : ∀ x ∈ plain, x.isPackSpread = false := plain_of_spreads (by
      unfold spreads
      omega)
    obtain ⟨heads, rest, rfl, hheads, hrest⟩ := instanceAll_append.mp hs
    rw [InstanceAll] at hrest
    obtain ⟨mid, tails, rfl, htails, -⟩ := hrest
    have hbefore' := forall₂_of_instanceAll hheads hbefore
    have hafter' := forall₂_of_instanceAll htails hafter
    have hplain' := forall₂_of_instanceAll hp hplain
    have htake : List.Forall₂ Instance (plain.take heads.length) heads := by
      have h := forall₂_take heads.length hplain'
      rwa [take_left] at h
    have hmiddle : List.Forall₂ Instance (plain.drop heads.length) (mid ++ tails) := by
      have h := forall₂_drop heads.length hplain'
      rwa [drop_left] at h
    have hmid : List.Forall₂ Instance ((plain.drop heads.length).take mid.length) mid := by
      have h := forall₂_take mid.length hmiddle
      rwa [take_left] at h
    have hlast : List.Forall₂ Instance ((plain.drop heads.length).drop mid.length) tails := by
      have h := forall₂_drop mid.length hmiddle
      rwa [drop_left] at h
    refine ⟨_, lineUp_eq_some.mpr ⟨plain.take heads.length,
      (plain.drop heads.length).take mid.length, (plain.drop heads.length).drop mid.length, ?_,
      htake.length_eq.trans hbefore'.length_eq.symm,
      hlast.length_eq.trans hafter'.length_eq.symm, rfl⟩, ?_⟩
    · rw [append_assoc, take_append_drop, take_append_drop]
    · intro p hp
      rcases mem_append.mp hp with hp | hp
      · exact overlaps_of_zip hbefore' htake p hp
      · exact overlaps_of_zip hafter' hlast p hp
  unfold lined
  cases hat : as.findIdx? FqTypeName.isPackSpread with
  | some at_ => exact hspread hone ha hb hat
  | none =>
    cases hat' : bs.findIdx? FqTypeName.isPackSpread with
    | some at_ => exact hspread (by omega) hb ha hat'
    | none =>
      have ha' := forall₂_of_instanceAll ha (List.findIdx?_eq_none_iff.mp hat)
      have hb' := forall₂_of_instanceAll hb (List.findIdx?_eq_none_iff.mp hat')
      dsimp only
      rw [if_pos (ha'.length_eq.trans hb'.length_eq.symm)]
      exact ⟨_, rfl, overlaps_of_zip ha' hb'⟩

/-- Two names between which the test sees all there is to see: where two open names face,
the references of the first begin those of the second; function types that face are one;
and where lists hold more than one spread, the names that line up overlap by themselves. -/
inductive Meets : FqTypeName Module → FqTypeName Module → Prop where
  | bothOpen {a b : FqTypeName Module} (ha : a.isOpen = true) (hb : b.isOpen = true)
      (hreference : a.reference <+: b.reference) : Meets a b
  | firstOpen {a b : FqTypeName Module} (ha : a.isOpen = true) (hb : b.isOpen = false) : Meets a b
  | secondOpen {a b : FqTypeName Module} (ha : a.isOpen = false) (hb : b.isOpen = true) : Meets a b
  | rigid {a b : FqTypeName Module} (ha : a.isOpen = false) (hb : b.isOpen = false)
      (hfunction : a.head.isFunction = true → b.head.isFunction = true → a.head = b.head)
      (hmany : 1 < spreads a.args + spreads b.args →
        ∃ pairs, lined FqTypeName.isPackSpread a.args b.args = some pairs ∧
          ∀ p ∈ pairs, Overlaps p.1 p.2)
      (hpairs : ∀ pairs, lined FqTypeName.isPackSpread a.args b.args = some pairs →
        ∀ p ∈ pairs, Meets p.1 p.2) : Meets a b

/-- The test finds exactly the overlaps of names that meet. -/
theorem unifiesWith_iff (a b : FqTypeName Module) :
    a.unifiesWith b = true ↔ Overlaps a b ∧ Meets a b := by
  have hsize : ∀ n (a b : FqTypeName Module), sizeOf a + sizeOf b < n →
      (a.unifiesWith b = true ↔ Overlaps a b ∧ Meets a b) := by
    intro n
    induction n with
    | zero =>
      intro a b hlt
      omega
    | succ n ih =>
      intro a b hlt
      cases ha : a.isOpen with
      | true =>
        rw [unifiesWith_of_open ha]
        constructor
        · intro href
          refine ⟨⟨b, (instance_of_open ha).mpr href, instance_self b⟩, ?_⟩
          cases hb : b.isOpen with
          | true => exact .bothOpen ha hb href
          | false => exact .firstOpen ha hb
        · rintro ⟨⟨target, hat, hbt⟩, hmeets⟩
          cases hmeets with
          | bothOpen _ _ href => exact href
          | firstOpen _ hb =>
            rw [← ((instance_of_rigid hb).mp hbt).1]
            exact (instance_of_open ha).mp hat
          | secondOpen ha' _ => rw [ha] at ha'; cases ha'
          | rigid ha' _ _ _ _ => rw [ha] at ha'; cases ha'
      | false =>
        cases hb : b.isOpen with
        | true =>
          rw [unifiesWith_of_rigid_open ha hb]
          constructor
          · intro href
            exact ⟨⟨a, instance_self a, (instance_of_open hb).mpr href⟩, .secondOpen ha hb⟩
          · rintro ⟨⟨target, hat, hbt⟩, -⟩
            rw [← ((instance_of_rigid ha).mp hat).1]
            exact (instance_of_open hb).mp hbt
        | false =>
          have hless : ∀ {pairs}, lined FqTypeName.isPackSpread a.args b.args = some pairs →
              ∀ p ∈ pairs, (p.1.unifiesWith p.2 = true ↔ Overlaps p.1 p.2 ∧ Meets p.1 p.2) := by
            intro pairs hpairs p hp
            have hp' := FqTypeName.sizeOf_lined_lt hpairs hp
            exact ih p.1 p.2 (by omega)
          rw [unifiesWith_of_rigid ha hb]
          constructor
          · rintro ⟨href, hhead, pairs, hpairs, hunify⟩
            have hover : ∀ p ∈ pairs, Overlaps p.1 p.2 := fun p hp =>
              ((hless hpairs p hp).mp (hunify p hp)).1
            obtain ⟨targets, hat, hbt⟩ := instanceAll_of_lined hpairs hover
            refine ⟨⟨.mk a.reference a.head targets, ?_, ?_⟩, ?_⟩
            · exact (instance_of_rigid ha).mpr ⟨rfl, instanceHead_self _, hat⟩
            · refine (instance_of_rigid hb).mpr ⟨href, ?_, hbt⟩
              change InstanceHead b.head a.head
              rw [hhead]
              exact instanceHead_self _
            · refine .rigid ha hb (fun _ _ => hhead) (fun _ => ⟨pairs, hpairs, hover⟩) ?_
              intro pairs' hpairs' p hp
              obtain rfl := Option.some.inj (hpairs.symm.trans hpairs')
              exact ((hless hpairs p hp).mp (hunify p hp)).2
          · rintro ⟨⟨target, hat, hbt⟩, hmeets⟩
            obtain ⟨hra, hha, haa⟩ := (instance_of_rigid ha).mp hat
            obtain ⟨hrb, hhb, hab⟩ := (instance_of_rigid hb).mp hbt
            cases hmeets with
            | bothOpen ha' _ _ => rw [ha] at ha'; cases ha'
            | firstOpen ha' _ => rw [ha] at ha'; cases ha'
            | secondOpen _ hb' => rw [hb] at hb'; cases hb'
            | rigid _ _ hfunction hmany hmeet =>
              refine ⟨hra.symm.trans hrb, ?_, ?_⟩
              · cases hfa : a.head.isFunction with
                | true => exact hfunction hfa (by
                    rw [← hhb.isFunction, hha.isFunction, hfa])
                | false =>
                  have hfb : b.head.isFunction = false := by
                    rw [← hhb.isFunction, hha.isFunction, hfa]
                  rw [← hha.eq_of_not_function hfa, ← hhb.eq_of_not_function hfb]
              · obtain ⟨pairs, hpairs, hover⟩ :
                    ∃ pairs, lined FqTypeName.isPackSpread a.args b.args = some pairs ∧
                      ∀ p ∈ pairs, Overlaps p.1 p.2 := by
                  by_cases hone : spreads a.args + spreads b.args ≤ 1
                  · exact lined_of_instanceAll hone haa hab
                  · exact hmany (by omega)
                exact ⟨pairs, hpairs, fun p hp => (hless hpairs p hp).mpr
                  ⟨hover p hp, hmeet pairs hpairs p hp⟩⟩
  exact hsize _ a b (Nat.lt_succ_self _)

/-- The test finds every overlap of two names, either way around, exactly where the names
meet both ways if they overlap at all. -/
theorem unifiesWith_complete_iff (a b : FqTypeName Module) :
    ((Overlaps a b → a.unifiesWith b = true) ∧ a.unifiesWith b = b.unifiesWith a) ↔
      (Overlaps a b → Meets a b ∧ Meets b a) := by
  constructor
  · rintro ⟨hcomplete, hsymm⟩ hover
    have hab := hcomplete hover
    refine ⟨((unifiesWith_iff a b).mp hab).2, ?_⟩
    rw [hsymm] at hab
    exact ((unifiesWith_iff b a).mp hab).2
  · intro h
    by_cases hover : Overlaps a b
    · have hab := (unifiesWith_iff a b).mpr ⟨hover, (h hover).1⟩
      have hba := (unifiesWith_iff b a).mpr ⟨overlaps_symm hover, (h hover).2⟩
      exact ⟨fun _ => hab, hab.trans hba.symm⟩
    · have hab : a.unifiesWith b = false := by
        rw [← Bool.not_eq_true]
        exact fun hunify => hover ((unifiesWith_iff a b).mp hunify).1
      have hba : b.unifiesWith a = false := by
        rw [← Bool.not_eq_true]
        exact fun hunify => hover (overlaps_symm ((unifiesWith_iff b a).mp hunify).1)
      exact ⟨fun h' => absurd h' hover, hab.trans hba.symm⟩

end Exact

/-- A function type of one parameter that returns nothing. -/
def fnOf (param : FqTypeName Unit) : FqTypeName Unit :=
  .mk [] (.function false [param] (.mk [] (.builtin ['(', ')']) []) []) []

def openT : FqTypeName Unit := .mk [] (.binder ['T'] none) []

def plainI32 : FqTypeName Unit := .mk [] (.builtin ['i', '3', '2']) []

/-- `fn(T) -> ()` is `fn(i32) -> ()` at `T = i32`, which the test does not find. -/
theorem unifiesWith_misses_function :
    ¬ ((Overlaps (fnOf openT) (fnOf plainI32) → (fnOf openT).unifiesWith (fnOf plainI32) = true) ∧
      (fnOf openT).unifiesWith (fnOf plainI32) = (fnOf plainI32).unifiesWith (fnOf openT)) := by
  have hover : Overlaps (fnOf openT) (fnOf plainI32) := by
    refine ⟨fnOf plainI32, (instance_of_rigid rfl).mpr ⟨rfl, ?_, instanceAll_self []⟩,
      instance_self _⟩
    change InstanceHead (.function false [openT] _ []) (.function false [plainI32] _ [])
    rw [InstanceHead]
    refine ⟨_, _, rfl, ?_, instance_self _⟩
    rw [InstanceAll]
    refine ⟨[plainI32], [], rfl, instanceAll_self [], .inr ⟨plainI32, rfl, ?_⟩⟩
    exact (instance_of_open rfl).mpr List.prefix_rfl
  rintro ⟨hcomplete, -⟩
  have hhead := ((unifiesWith_of_rigid rfl rfl).mp (hcomplete hover)).2.1
  simp [fnOf, openT, plainI32, FqTypeName.head] at hhead

end Wado.Mangle
