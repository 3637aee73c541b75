/-
Sets of stacks shared as a graph: a node has edges, each a key and the node of the stacks below
it, and node 0 stands below every stack.  Where nodes are numbered after the nodes below them,
their edges ascend by key and no two have the same edges, a node is its set of stacks.
-/
import Mathlib.Data.List.Sort
import Mathlib.Order.Basic

namespace StackSets

open List

variable {K : Type}

/-- `k` on top of the stack `s`. -/
def push (k : K) (s : Nat → K) : Nat → K
  | 0 => k
  | i + 1 => s i

/-- The stacks a node spells: at node 0 the bottom for ever, else an edge's key on top of a stack
of the node below. -/
inductive Spells (edges : Nat → List (K × Nat)) (bottom : K) : Nat → (Nat → K) → Prop
  | bottom : Spells edges bottom 0 fun _ => bottom
  | edge {n p : Nat} {k : K} {s : Nat → K} (h : (k, p) ∈ edges n)
      (hs : Spells edges bottom p s) : Spells edges bottom n (push k s)

/-- The graph of the nodes below `count`. -/
structure Graph [LinearOrder K] (edges : Nat → List (K × Nat)) (bottom : K) (count : Nat) :
    Prop where
  zero : edges 0 = [(bottom, 0)]
  nonempty : ∀ n < count, edges n ≠ []
  below : ∀ n < count, ∀ e ∈ edges n, e.2 < n ∨ n = 0
  ascending : ∀ n < count, (edges n).Pairwise fun e e' => e.1 < e'.1
  unique : ∀ m < count, ∀ n < count, edges m = edges n → m = n

theorem push_inj {k k' : K} {s s' : Nat → K} (h : push k s = push k' s') : k = k' ∧ s = s' :=
  ⟨congrFun h 0, funext fun i => congrFun h (i + 1)⟩

theorem push_bottom (k : K) : push k (fun _ => k) = fun _ => k := by
  funext i
  cases i with
  | zero => rfl
  | succ i => rfl

namespace Graph

variable [LinearOrder K] {edges edges' : Nat → List (K × Nat)} {bottom : K} {count : Nat}

variable {n : Nat}

section

variable (h : Graph edges bottom count)
include h

theorem edge_lt (hn : n < count) {e : K × Nat} (he : e ∈ edges n) : e.2 < count := by
  rcases h.below n hn e he with hlt | rfl
  · omega
  · rw [h.zero, mem_singleton] at he
    rw [he]
    exact hn

/-- A stack of a node has an edge's key on top. -/
theorem spells_iff {s : Nat → K} :
    Spells edges bottom n s ↔
      ∃ k p t, (k, p) ∈ edges n ∧ s = push k t ∧ Spells edges bottom p t := by
  constructor
  · intro hs
    cases hs with
    | bottom => exact ⟨bottom, 0, _, by rw [h.zero]; simp, (push_bottom bottom).symm, .bottom⟩
    | edge he ht => exact ⟨_, _, _, he, rfl, ht⟩
  · rintro ⟨k, p, t, he, rfl, ht⟩
    exact .edge he ht

theorem spells_push_iff {k : K} {s : Nat → K} :
    Spells edges bottom n (push k s) ↔ ∃ p, (k, p) ∈ edges n ∧ Spells edges bottom p s := by
  rw [h.spells_iff]
  constructor
  · rintro ⟨k', p, t, he, heq, ht⟩
    obtain ⟨rfl, rfl⟩ := push_inj heq
    exact ⟨p, he, ht⟩
  · rintro ⟨p, he, hs⟩
    exact ⟨k, p, s, he, rfl, hs⟩

/-- Every node spells some stack. -/
theorem exists_spells (hn : n < count) :
    ∃ s, Spells edges bottom n s := by
  induction n using Nat.strong_induction_on with
  | _ n ih =>
    obtain ⟨⟨k, p⟩, he⟩ := exists_mem_of_ne_nil _ (h.nonempty n hn)
    rcases h.below n hn _ he with hlt | rfl
    · obtain ⟨s, hs⟩ := ih p hlt (by simp only at hlt; omega)
      exact ⟨push k s, .edge he hs⟩
    · exact ⟨_, .bottom⟩

/-- A node has one edge of a key. -/
theorem edge_unique (hn : n < count) {k : K} {p q : Nat}
    (hp : (k, p) ∈ edges n) (hq : (k, q) ∈ edges n) : p = q := by
  have hnodup : ((edges n).map Prod.fst).Nodup :=
    pairwise_map.mpr ((h.ascending n hn).imp ne_of_lt)
  exact congrArg Prod.snd (inj_on_of_nodup_map hnodup hp hq rfl)

end

variable {m n : Nat}

section

variable (h : Graph edges bottom count)
include h

/-- The sets of stacks below one key of two nodes. -/
theorem subset_of_subset (hn : n < count) {k : K}
    {p q : Nat} (hp : (k, p) ∈ edges m) (hq : (k, q) ∈ edges n)
    (hsub : ∀ s, Spells edges bottom m s → Spells edges bottom n s) (s : Nat → K)
    (hs : Spells edges bottom p s) : Spells edges bottom q s := by
  obtain ⟨q', hq', hs'⟩ := h.spells_push_iff.mp (hsub _ (.edge hp hs))
  rw [h.edge_unique hn hq hq']
  exact hs'

/-- One node's stacks are among another's exactly when each key is, with the stacks below it. -/
theorem subset_iff (hm : m < count) (hn : n < count) :
    (∀ s, Spells edges bottom m s → Spells edges bottom n s) ↔
      ∀ e ∈ edges m, ∃ q, (e.1, q) ∈ edges n ∧
        ∀ s, Spells edges bottom e.2 s → Spells edges bottom q s := by
  constructor
  · rintro hsub ⟨k, p⟩ hp
    obtain ⟨s, hs⟩ := h.exists_spells (h.edge_lt hm hp)
    obtain ⟨q, hq, -⟩ := h.spells_push_iff.mp (hsub _ (.edge hp hs))
    exact ⟨q, hq, h.subset_of_subset hn hp hq hsub⟩
  · intro hedges s hs
    obtain ⟨k, p, t, he, rfl, ht⟩ := h.spells_iff.mp hs
    obtain ⟨q, hq, hsub⟩ := hedges _ he
    exact .edge hq (hsub t ht)

/-- The node that has the keys of two nodes, and below a key of both the stacks of both, is their
union. -/
theorem spells_union {a b r : Nat} (hleft : ∀ e ∈ edges a, ∃ p, (e.1, p) ∈ edges r ∧
      ∀ s, Spells edges bottom e.2 s → Spells edges bottom p s)
    (hright : ∀ e ∈ edges b, ∃ p, (e.1, p) ∈ edges r ∧
      ∀ s, Spells edges bottom e.2 s → Spells edges bottom p s)
    (hboth : ∀ e ∈ edges r, ∀ s, Spells edges bottom e.2 s →
      (∃ p, (e.1, p) ∈ edges a ∧ Spells edges bottom p s) ∨
        ∃ p, (e.1, p) ∈ edges b ∧ Spells edges bottom p s) (s : Nat → K) :
    Spells edges bottom r s ↔ Spells edges bottom a s ∨ Spells edges bottom b s := by
  constructor
  · intro hs
    obtain ⟨k, p, t, he, rfl, ht⟩ := h.spells_iff.mp hs
    rcases hboth _ he t ht with ⟨q, hq, hqs⟩ | ⟨q, hq, hqs⟩
    · exact Or.inl (.edge hq hqs)
    · exact Or.inr (.edge hq hqs)
  · rintro (hs | hs)
    · obtain ⟨k, p, t, he, rfl, ht⟩ := h.spells_iff.mp hs
      obtain ⟨q, hq, hsub⟩ := hleft _ he
      exact .edge hq (hsub t ht)
    · obtain ⟨k, p, t, he, rfl, ht⟩ := h.spells_iff.mp hs
      obtain ⟨q, hq, hsub⟩ := hright _ he
      exact .edge hq (hsub t ht)

/-- More nodes do not change the stacks of those there were. -/
theorem spells_congr (hsame : ∀ n < count, edges' n = edges n) (hn : n < count) (s : Nat → K) :
    Spells edges' bottom n s ↔ Spells edges bottom n s := by
  constructor
  · intro hs
    induction hs with
    | bottom => exact .bottom
    | edge he _ ih =>
      rw [hsame _ hn] at he
      exact .edge he (ih (h.edge_lt hn he))
  · intro hs
    induction hs with
    | bottom => exact .bottom
    | edge he _ ih =>
      have hlt := h.edge_lt hn he
      rw [← hsame _ hn] at he
      exact .edge he (ih hlt)

end

end Graph

end StackSets
