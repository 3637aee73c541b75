/-
A walk from a stack of items that pushes what each leads to and forgets where it
has been.  It stops at an item that cannot be opened.  Whether it ends depends on the
items only: it does not where an item comes back to one of its own name through items
that are finished after it.
-/
import Mathlib.Data.Set.Finite.Basic
import Mathlib.Logic.Relation
import Mathlib.Order.Preorder.Finite
import Mathlib.Order.WellFounded

namespace StackWalk

open List

variable {κ ν : Type} (children : κ → Option (List κ))

/-- Whether the walk of a stack ends within `fuel` items. -/
def ends : Nat → List κ → Bool
  | 0, _ => false
  | _ + 1, [] => true
  | fuel + 1, item :: stack =>
    match children item with
    | none => true
    | some items => ends fuel (items.reverse ++ stack)

/-- Everything below the item can be opened, to an end. -/
inductive Clear : κ → Prop where
  | opens {item : κ} {items : List κ} (hchildren : children item = some items)
      (hclear : ∀ child ∈ items, Clear child) : Clear item

/-- The walk of `item` comes to its child `child`: those pushed after it are passed. -/
def Leads (item child : κ) : Prop :=
  ∃ before after, children item = some (before ++ child :: after) ∧
    ∀ other ∈ after, Clear children other

/-- `item` leads to an item that leads to one of its own name. -/
def Loops (name : κ → ν) (item : κ) : Prop :=
  ∃ first again, Relation.ReflTransGen (Leads children) item first ∧
    Relation.TransGen (Leads children) first again ∧ name again = name first

variable {children}

variable {items : List κ} {fuel : Nat} {item : κ}

section Passing

variable {stack : List κ}

/-- A walk passes items each of which it passes. -/
theorem passes_list
    (hitems : ∀ item ∈ items, ∀ fuel stack, ends children fuel (item :: stack) = true →
      ∃ rest, rest < fuel ∧ ends children rest stack = true)
    (h : ends children fuel (items ++ stack) = true) :
    ∃ rest, rest ≤ fuel ∧ ends children rest stack = true := by
  induction items generalizing fuel with
  | nil => exact ⟨fuel, le_rfl, h⟩
  | cons item items ih =>
    obtain ⟨mid, hmid, h⟩ := hitems item mem_cons_self fuel (items ++ stack) h
    obtain ⟨rest, hrest, h⟩ := ih (fun other hother =>
      hitems other (mem_cons_of_mem _ hother)) h
    exact ⟨rest, hrest.trans hmid.le, h⟩

/-- A walk that ends passes an item that can be opened to an end. -/
theorem Clear.passes (hclear : Clear children item) :
    ∀ fuel stack, ends children fuel (item :: stack) = true →
      ∃ rest, rest < fuel ∧ ends children rest stack = true := by
  induction hclear with
  | @opens item items hchildren _ ih =>
    intro fuel stack h
    cases fuel with
    | zero => cases h
    | succ fuel =>
      unfold ends at h
      rw [hchildren] at h
      obtain ⟨rest, hrest, h⟩ := passes_list
        (fun other hother => ih other (mem_reverse.mp hother)) h
      exact ⟨rest, Nat.lt_succ_of_le hrest, h⟩

theorem resumes_list (hitems : ∀ item ∈ items, ∀ fuel stack, ends children fuel stack = true →
      ∃ more, ends children more (item :: stack) = true)
    (h : ends children fuel stack = true) :
    ∃ more, ends children more (items ++ stack) = true := by
  induction items with
  | nil => exact ⟨fuel, h⟩
  | cons item items ih =>
    obtain ⟨mid, hmid⟩ := ih fun other hother => hitems other (mem_cons_of_mem _ hother)
    exact hitems item mem_cons_self mid _ hmid

/-- An item that can be opened to an end keeps no walk from ending. -/
theorem Clear.resumes (hclear : Clear children item) :
    ∀ fuel stack, ends children fuel stack = true →
      ∃ more, ends children more (item :: stack) = true := by
  induction hclear with
  | @opens item items hchildren _ ih =>
    intro fuel stack h
    obtain ⟨more, hmore⟩ := resumes_list
      (fun other hother => ih other (mem_reverse.mp hother)) h
    refine ⟨more + 1, ?_⟩
    unfold ends
    rw [hchildren]
    exact hmore

/-- A walk that ends ends from each item that it comes to. -/
theorem Leads.passes {item child : κ} (hleads : Leads children item child)
    (h : ends children fuel (item :: stack) = true) :
    ∃ rest below, rest < fuel ∧ ends children rest (child :: below) = true := by
  obtain ⟨before, after, hchildren, hafter⟩ := hleads
  cases fuel with
  | zero => cases h
  | succ fuel =>
    unfold ends at h
    rw [hchildren] at h
    have hsplit : (before ++ child :: after).reverse ++ stack =
        after.reverse ++ (child :: (before.reverse ++ stack)) := by simp
    change ends children fuel ((before ++ child :: after).reverse ++ stack) = true at h
    rw [hsplit] at h
    obtain ⟨rest, hrest, h⟩ := passes_list
      (fun other hother => (hafter other (mem_reverse.mp hother)).passes) h
    exact ⟨rest, _, Nat.lt_succ_of_le hrest, h⟩

/-- A walk ends at an item where it ends from each item that this leads to. -/
theorem ends_of_leads (hleads : ∀ child, Leads children item child →
      Clear children child ∨ ∀ stack, ∃ fuel, ends children fuel (child :: stack) = true) :
    Clear children item ∨ ∀ stack, ∃ fuel, ends children fuel (item :: stack) = true := by
  cases hchildren : children item with
  | none =>
    refine .inr fun stack => ⟨1, ?_⟩
    unfold ends
    rw [hchildren]
  | some items =>
    -- From the last child on, as long as the children seen are clear.
    have hsplit : ∀ after before, before ++ after = items →
        (∀ other ∈ after, Clear children other) →
        Clear children item ∨ ∀ stack, ∃ fuel, ends children fuel (item :: stack) = true := by
      intro after before
      induction before using List.reverseRecOn generalizing after with
      | nil =>
        intro hitems hafter
        rw [nil_append] at hitems
        subst hitems
        exact .inl (.opens hchildren hafter)
      | append_singleton before child ih =>
        intro hitems hafter
        rw [append_assoc, singleton_append] at hitems
        rcases hleads child ⟨before, after, hitems ▸ hchildren, hafter⟩ with hclear | hends
        · refine ih (child :: after) hitems fun other hother => ?_
          rcases mem_cons.mp hother with rfl | hother
          · exact hclear
          · exact hafter other hother
        · refine .inr fun stack => ?_
          obtain ⟨fuel, hfuel⟩ := hends (before.reverse ++ stack)
          have hresumes : ∀ other ∈ after.reverse, ∀ fuel stack, ends children fuel stack = true →
                ∃ more, ends children more (other :: stack) = true :=
            fun other hother => (hafter other (mem_reverse.mp hother)).resumes
          obtain ⟨more, hmore⟩ := resumes_list hresumes hfuel
          refine ⟨more + 1, ?_⟩
          unfold ends
          rw [hchildren, ← hitems]
          change ends children more ((before ++ child :: after).reverse ++ stack) = true
          have hreverse : (before ++ child :: after).reverse ++ stack =
              after.reverse ++ (child :: (before.reverse ++ stack)) := by simp
          rw [hreverse]
          exact hmore
    exact hsplit [] items (append_nil items) fun _ hmem => absurd hmem not_mem_nil

end Passing

section Names

variable {name : κ → ν}

/-- Items of one name have children of the same names. -/
def Named (children : κ → Option (List κ)) (name : κ → ν) : Prop :=
  ∀ item item', name item = name item' →
    (children item).map (List.map name) = (children item').map (List.map name)

section

variable (hnamed : Named children name)
include hnamed

theorem Named.opened {item item' : κ}
    (hname : name item = name item') (hchildren : children item = some items) :
    ∃ items', children item' = some items' ∧ items.map name = items'.map name := by
  have h := hnamed item item' hname
  rw [hchildren] at h
  obtain ⟨items', hchildren', hmap⟩ := Option.map_eq_some_iff.mp h.symm
  exact ⟨items', hchildren', hmap.symm⟩

theorem Clear.named (hclear : Clear children item) :
    ∀ item', name item = name item' → Clear children item' := by
  induction hclear with
  | @opens item items hchildren _ ih =>
    intro item' hname
    obtain ⟨items', hchildren', hmap⟩ := hnamed.opened hname hchildren
    refine .opens hchildren' fun child' hchild' => ?_
    obtain ⟨child, hchild, heq⟩ := mem_map.mp (hmap ▸ mem_map_of_mem hchild')
    exact ih child hchild child' heq

theorem Leads.named {item item' child : κ}
    (hleads : Leads children item child) (hname : name item = name item') :
    ∃ child', Leads children item' child' ∧ name child = name child' := by
  obtain ⟨before, after, hchildren, hafter⟩ := hleads
  obtain ⟨items', hchildren', hmap⟩ := hnamed.opened hname hchildren
  rw [map_append, map_cons] at hmap
  obtain ⟨before', rest', rfl, -, hrest⟩ := map_eq_append_iff.mp hmap.symm
  obtain ⟨child', after', rfl, hchild, hafter'⟩ := map_eq_cons_iff.mp hrest
  refine ⟨child', ⟨before', after', hchildren', fun other' hother' => ?_⟩, hchild.symm⟩
  obtain ⟨other, hother, heq⟩ := mem_map.mp (hafter' ▸ mem_map_of_mem hother')
  exact (hafter other hother).named hnamed other' heq

theorem transGen_named {item item' last : κ}
    (hleads : Relation.TransGen (Leads children) item last) (hname : name item = name item') :
    ∃ last', Relation.TransGen (Leads children) item' last' ∧ name last = name last' := by
  induction hleads with
  | single hleads =>
    obtain ⟨child', hleads', hchild⟩ := hleads.named hnamed hname
    exact ⟨child', .single hleads', hchild⟩
  | tail _ hleads ih =>
    obtain ⟨mid', hmid', hmid⟩ := ih
    obtain ⟨child', hleads', hchild⟩ := hleads.named hnamed hmid
    exact ⟨child', .tail hmid' hleads', hchild⟩

/-- An item that loops leads to one that does. -/
theorem Loops.leads (hloops : Loops children name item) :
    ∃ child, Leads children item child ∧ Loops children name child := by
  obtain ⟨first, again, hfirst, hagain, hname⟩ := hloops
  rcases Relation.ReflTransGen.cases_head hfirst with rfl | ⟨child, hleads, hchild⟩
  · -- The loop starts here: it is walked once more from where it came back.
    obtain ⟨child, hleads, hchild⟩ := Relation.TransGen.head'_iff.mp hagain
    obtain ⟨last, hlast, hnames⟩ := transGen_named hnamed hagain hname.symm
    exact ⟨child, hleads, again, last, hchild, hlast, hnames.symm.trans rfl⟩
  · exact ⟨child, hleads, first, again, hchild, hagain, hname⟩

theorem Loops.not_ends (hloops : Loops children name item) (stack : List κ) :
    ends children fuel (item :: stack) = false := by
  induction fuel using Nat.strong_induction_on generalizing item stack with
  | h fuel ih =>
    rw [← Bool.not_eq_true]
    intro h
    obtain ⟨child, hleads, hchild⟩ := hloops.leads hnamed
    obtain ⟨rest, below, hrest, hends⟩ := hleads.passes h
    exact Bool.false_ne_true ((ih rest hrest hchild below).symm.trans hends)

end

end Names

section Ending

variable {name : κ → ν}

variable {r : κ → κ → Prop}

/-- Below an item that is not accessible lies a chain without end. -/
theorem exists_chain (h : ¬ Acc (flip r) item) :
    ∃ chain : Nat → κ, chain 0 = item ∧ ∀ n, r (chain n) (chain (n + 1)) := by
  have hnext : ∀ x : { x : κ // ¬ Acc (flip r) x }, ∃ y : { x : κ // ¬ Acc (flip r) x },
      r x.1 y.1 := by
    intro x
    obtain ⟨y, hy, hr⟩ := exists_not_acc_lt_of_not_acc x.2
    exact ⟨⟨y, hy⟩, hr⟩
  choose next hnext using hnext
  let chain : Nat → { x : κ // ¬ Acc (flip r) x } := fun n => n.rec ⟨item, h⟩ fun _ x => next x
  exact ⟨fun n => (chain n).1, rfl, fun n => hnext (chain n)⟩

theorem chain_reaches {chain : Nat → κ} (hchain : ∀ n, r (chain n) (chain (n + 1))) (m n : Nat) :
    Relation.ReflTransGen r (chain m) (chain (m + n)) := by
  induction n with
  | zero => exact .refl
  | succ n ih => exact .tail ih (hchain (m + n))

/-- Without loops, an item of finitely many names below is accessible. -/
theorem acc_of_not_loops
    (hfinite : { n | ∃ child, Relation.ReflTransGen (Leads children) item child ∧
      name child = n }.Finite) (h : ¬ Loops children name item) :
    Acc (flip (Leads children)) item := by
  by_contra hacc
  obtain ⟨chain, hzero, hchain⟩ := exists_chain hacc
  have hreach : ∀ n, Relation.ReflTransGen (Leads children) item (chain n) := by
    intro n
    have hn := chain_reaches hchain 0 n
    rwa [hzero, Nat.zero_add] at hn
  have hmem : ∀ n, name (chain n) ∈ { n | ∃ child,
      Relation.ReflTransGen (Leads children) item child ∧ name child = n } :=
    fun n => ⟨chain n, hreach n, rfl⟩
  obtain ⟨m, n, hlt, hname⟩ := Set.Finite.exists_lt_map_eq_of_forall_mem hmem hfinite
  obtain ⟨gap, rfl⟩ := Nat.exists_eq_add_of_lt hlt
  refine h ⟨chain m, chain (m + gap + 1), hreach m, ?_, hname.symm⟩
  exact Relation.TransGen.tail' (chain_reaches hchain m gap) (hchain (m + gap))

theorem clear_or_ends (hacc : Acc (flip (Leads children)) item) :
    Clear children item ∨ ∀ stack, ∃ fuel, ends children fuel (item :: stack) = true := by
  induction hacc with
  | intro item _ ih => exact ends_of_leads fun child hleads => ih child hleads

/-- The walk of an item ends exactly where the item does not loop. -/
theorem ends_iff_not_loops (hnamed : Named children name)
    (hfinite : { n | ∃ child, Relation.ReflTransGen (Leads children) item child ∧
      name child = n }.Finite) :
    (∃ fuel, ends children fuel [item] = true) ↔ ¬ Loops children name item := by
  constructor
  · rintro ⟨fuel, h⟩ hloops
    rw [hloops.not_ends hnamed []] at h
    exact Bool.false_ne_true h
  · intro h
    rcases clear_or_ends (acc_of_not_loops hfinite h) with hclear | hends
    · exact hclear.resumes 1 [] rfl
    · exact hends []

end Ending

end StackWalk
