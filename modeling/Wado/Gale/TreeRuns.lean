/-
Runs of a builder: its rows nest, the rows it holds as open are those that stand open, and the
node finished last is closed unless it was resumed.
-/
import Wado.Gale.TreeChildren

namespace Wado.Gale

open Nesting

/-- A node that was opened at a row is closed by a later one. -/
def ClosedBy (rows : List Row) (row close : Nat) : Prop :=
  (brackets rows)[close]? = some .closes ∧
    ∃ outer, standing 0 [] ((brackets rows).take close) = some (row :: outer)

/-- No row after closes a node. -/
def LastClose (rows : List Row) (close : Nat) : Prop :=
  ∀ later, close < later → (brackets rows)[later]? ≠ some .closes

theorem brackets_append (front back : List Row) :
    brackets (front ++ back) = brackets front ++ brackets back := List.map_append

theorem ClosedBy.append {rows : List Row} {row close : Nat} (h : ClosedBy rows row close)
    (back : List Row) : ClosedBy (rows ++ back) row close := by
  obtain ⟨hclose, outer, houter⟩ := h
  have hlt := (List.getElem?_eq_some_iff.mp hclose).1
  refine ⟨?_, outer, ?_⟩
  · rw [brackets_append, List.getElem?_append_left hlt, hclose]
  · rw [brackets_append, List.take_append_of_le_length (Nat.le_of_lt hlt), houter]

theorem LastClose.append {rows : List Row} {close : Nat} (h : LastClose rows close) {row : Row}
    (hrow : row.tag ≠ .closes) : LastClose (rows ++ [row]) close := by
  intro later hlt hfound
  rw [brackets_append, List.getElem?_append] at hfound
  split at hfound
  · exact h later hlt hfound
  · rw [List.getElem?_eq_some_iff] at hfound
    obtain ⟨hbound, hfound⟩ := hfound
    simp only [brackets, List.map_cons, List.map_nil] at hfound
    cases htag : row.tag <;> simp [htag, EventTag.bracket] at hfound hrow

theorem ClosedBy.opens {rows : List Row} {row close : Nat} (h : ClosedBy rows row close) :
    (brackets rows)[row]? = some .opens := by
  obtain ⟨hclose, outer, houter⟩ := h
  rcases standing_mem houter List.mem_cons_self with hnone | ⟨i, hi, heq⟩
  · simp at hnone
  · rw [Nat.zero_add] at heq
    rw [heq]
    rw [List.getElem?_take] at hi
    split at hi
    · exact hi
    · cases hi

/-- The invariant of a builder; a node finished last stands open only where it was resumed. -/
structure Nested (resumed : Prop) (b : TreeBuilder) : Prop where
  stands : standing 0 [] (brackets b.rows) = some b.openRows.reverse
  finished : ∀ row ∈ b.lastFinished, (row ∈ b.openRows ∧ resumed) ∨
    ∃ close, ClosedBy b.rows row close ∧ LastClose b.rows close

variable {row : Nat} {finish : Int}

namespace Nested

variable {resumed : Prop} {b b' : TreeBuilder}

theorem imp {resumed' : Prop} (h : Nested resumed b) (himp : resumed → resumed') :
    Nested resumed' b where
  stands := h.stands
  finished := fun row hrow => (h.finished row hrow).imp_left fun hopen => ⟨hopen.1, himp hopen.2⟩

theorem empty (resumed : Prop) : Nested resumed .empty where
  stands := rfl
  finished := by simp [TreeBuilder.empty]

theorem open_opens (h : Nested resumed b) (hrow : row ∈ b.openRows) :
    (brackets b.rows)[row]? = some .opens := by
  rcases standing_mem h.stands (List.mem_reverse.mpr hrow) with hnone | ⟨i, hi, rfl⟩
  · simp at hnone
  · rw [Nat.zero_add]
    exact hi

theorem open_lt (h : Nested resumed b) (hrow : row ∈ b.openRows) :
    row < b.rows.length := by
  have hlt := (List.getElem?_eq_some_iff.mp (h.open_opens hrow)).1
  simpa [brackets] using hlt

theorem open_le (h : Nested resumed b) {row innermost : Nat} (hrow : row ∈ b.openRows)
    (hlast : b.openRows.getLast? = some innermost) : row ≤ innermost := by
  have hdesc := standing_descends h.stands (by simp) List.Pairwise.nil
  obtain ⟨front, hfront⟩ := List.getLast?_eq_some_iff.mp hlast
  rw [hfront] at hdesc hrow
  rw [List.reverse_append, List.reverse_singleton, List.singleton_append,
    List.pairwise_cons] at hdesc
  rcases List.mem_append.mp hrow with hin | hin
  · exact Nat.le_of_lt (hdesc.1 row (List.mem_reverse.mpr hin))
  · exact Nat.le_of_eq (List.mem_singleton.mp hin)

theorem leaf (h : Nested resumed b) {tag : EventTag} (htag : tag.bracket = .plain)
    (id offset : Int) : Nested resumed (b.pushRow tag id offset) where
  stands := by
    simp only [TreeBuilder.pushRow, brackets_append]
    refine (standing_snoc h.stands _).trans ?_
    simp only [htag]
    rfl
  finished := by
    intro row hrow
    rcases h.finished row hrow with hopen | ⟨close, hclose, hlast⟩
    · exact .inl hopen
    · refine .inr ⟨close, hclose.append _, hlast.append ?_⟩
      intro heq
      simp only at heq
      rw [heq] at htag
      cases htag

theorem startNode (h : Nested resumed b) (kind start : Int) :
    Nested resumed (b.startNode kind start) where
  stands := by
    simp only [TreeBuilder.startNode, TreeBuilder.pushRow, brackets_append]
    refine (standing_snoc h.stands _).trans ?_
    simp [EventTag.bracket, next, brackets]
  finished := by
    intro row hrow
    rcases h.finished row hrow with hopen | ⟨close, hclose, hlast⟩
    · exact .inl ⟨List.mem_append_left _ hopen.1, hopen.2⟩
    · exact .inr ⟨close, hclose.append _, hlast.append (by simp)⟩

theorem finishNode (h : Nested resumed b) (hb : b.finishNode finish = some b') :
    Nested resumed b' := by
  simp only [TreeBuilder.finishNode, Option.bind_eq_bind, Option.bind_eq_some_iff] at hb
  obtain ⟨row, hrow, found, hfound, hb⟩ := hb
  obtain ⟨front, hfront⟩ := List.getLast?_eq_some_iff.mp hrow
  have hreverse : b.openRows.reverse = row :: front.reverse := by simp [hfront]
  cases hb
  constructor
  · simp only [TreeBuilder.pushRow, brackets_append]
    refine (standing_snoc h.stands _).trans ?_
    rw [hreverse, hfront, List.dropLast_concat]
    rfl
  · intro row' hrow'
    cases hrow'
    refine .inr ⟨b.rows.length, ⟨?_, front.reverse, ?_⟩, ?_⟩
    · simp [TreeBuilder.pushRow, brackets, EventTag.bracket]
    · have hlength : (brackets b.rows).length = b.rows.length := by simp [brackets]
      simp only [TreeBuilder.pushRow, brackets_append]
      rw [← hlength, List.take_left, h.stands, hreverse]
    · intro later hlt hsome
      have hbound := (List.getElem?_eq_some_iff.mp hsome).1
      simp [TreeBuilder.pushRow, brackets] at hbound
      omega

end Nested

theorem map_modify_same {α β : Type} {f : α → β} {g : α → α} (h : ∀ x, f (g x) = f x)
    (l : List α) (i : Nat) : (l.modify i g).map f = l.map f := by
  apply List.ext_getElem?
  intro j
  rw [List.getElem?_map, List.getElem?_map, List.getElem?_modify]
  cases l[j]? with
  | none => rfl
  | some x =>
    by_cases hij : i = j
    · simp [hij, h]
    · simp [hij]

theorem Nested.setAlt {resumed : Prop} {b b' : TreeBuilder} (h : Nested resumed b) {alt : Int}
    (hb : b.setAlt alt = some b') : Nested resumed b' := by
  simp only [TreeBuilder.setAlt, Option.bind_eq_bind, Option.bind_eq_some_iff] at hb
  obtain ⟨row, _, hb⟩ := hb
  cases hb
  have hsame : brackets (b.rows.modify row fun found => { found with alt := alt }) =
      brackets b.rows := by
    unfold brackets
    apply map_modify_same
    intro found
    rfl
  refine ⟨by rw [hsame]; exact h.stands, ?_⟩
  intro row' hrow'
  rcases h.finished row' hrow' with hopen | ⟨close, hclose, hlast⟩
  · exact .inl hopen
  · refine .inr ⟨close, ?_, ?_⟩
    · rw [ClosedBy, hsame]
      exact hclose
    · rw [LastClose, hsame]
      exact hlast

theorem dropFrom_append {cp : Nat} {inner outer : List Nat} (hinner : ∀ p ∈ inner, cp ≤ p)
    (houter : ∀ p ∈ outer, p < cp) :
    TreeBuilder.dropFrom cp (outer.reverse ++ inner.reverse) = outer.reverse := by
  rw [TreeBuilder.dropFrom, List.reverse_append, List.reverse_reverse, List.reverse_reverse,
    List.dropWhile_append_of_pos (by simpa using hinner)]
  cases outer with
  | nil => rfl
  | cons p outer =>
    have hp := houter p List.mem_cons_self
    rw [List.dropWhile_cons_of_neg (by simp; omega)]

namespace Nested

variable {resumed : Prop} {b b' : TreeBuilder}

/-- The open rows split at a checkpoint that stands. -/
theorem split (h : Nested resumed b) {cp : Nat} (hstands : Stands (brackets b.rows) cp) :
    ∃ inner outer, standing 0 [] ((brackets b.rows).take cp) = some outer ∧
      standing cp [] ((brackets b.rows).drop cp) = some inner ∧
      b.openRows = outer.reverse ++ inner.reverse ∧ (∀ p ∈ inner, cp ≤ p) ∧
      ∀ p ∈ outer, p < cp := by
  by_cases hcp : cp ≤ (brackets b.rows).length
  · obtain ⟨inner, outer, houter, hinner, heq⟩ := standing_split hcp h.stands hstands
    refine ⟨inner, outer, houter, hinner, ?_, ?_, ?_⟩
    · rw [← List.reverse_reverse b.openRows, heq, List.reverse_append]
    · intro p hp
      exact (standing_between hinner hp).1
    · intro p hp
      have hlt := (standing_between houter hp).2
      rw [List.length_take_of_le hcp] at hlt
      omega
  · refine ⟨[], b.openRows.reverse, ?_, ?_, by simp, by simp, ?_⟩
    · rw [List.take_of_length_le (by omega)]
      exact h.stands
    · rw [List.drop_of_length_le (by omega)]
      rfl
    · intro p hp
      have hlt := h.open_lt (List.mem_reverse.mp hp)
      simp only [brackets, List.length_map] at hcp
      omega

theorem truncate (h : Nested resumed b) {cp : Nat} (hstands : Stands (brackets b.rows) cp) :
    Nested resumed (b.truncate cp) := by
  obtain ⟨inner, outer, houter, hinner, hopen, hge, hlt⟩ := h.split hstands
  have hrows : brackets (b.rows.take cp) = (brackets b.rows).take cp := List.map_take
  have hdrop : (b.truncate cp).openRows = outer.reverse := by
    simp only [TreeBuilder.truncate, hopen]
    exact dropFrom_append hge hlt
  constructor
  · rw [hdrop, List.reverse_reverse]
    simp only [TreeBuilder.truncate, hrows]
    exact houter
  · intro row hrow
    simp only [TreeBuilder.truncate, Option.mem_def, Option.filter_eq_some_iff,
      decide_eq_true_eq] at hrow
    rcases h.finished row hrow.1 with hin | ⟨close, hclose, hlast⟩
    · refine .inl ⟨?_, hin.2⟩
      rw [hdrop]
      rw [hopen] at hin
      rcases List.mem_append.mp hin.1 with hrow' | hrow'
      · exact hrow'
      · have := hge row (List.mem_reverse.mp hrow')
        omega
    · obtain ⟨hcloses, around, haround⟩ := hclose
      have hbefore := closes_before hrow.2 hstands hcloses haround
      refine .inr ⟨close, ⟨?_, around, ?_⟩, ?_⟩
      · simp only [TreeBuilder.truncate, hrows]
        rw [List.getElem?_take_of_lt hbefore, hcloses]
      · simp only [TreeBuilder.truncate, hrows]
        rw [List.take_take, Nat.min_eq_left (Nat.le_of_lt hbefore), haround]
      · intro later hlater hsome
        simp only [TreeBuilder.truncate, hrows] at hsome
        rw [List.getElem?_take] at hsome
        split at hsome
        · exact hlast later hlater hsome
        · simp at hsome

theorem finishPast (h : Nested resumed b) {row nodes : Nat}
    (hb : TreeBuilder.finishPast row finish nodes b = some b')
    (hnodes : b.openRows.length ≤ nodes) :
    Nested resumed b' ∧ ∀ innermost ∈ b'.openRows.getLast?, innermost ≤ row := by
  induction nodes generalizing b with
  | zero =>
    have hnil : b.openRows = [] := List.eq_nil_of_length_eq_zero (by omega)
    cases hb
    exact ⟨h, by simp [hnil]⟩
  | succ nodes ih =>
    simp only [TreeBuilder.finishPast] at hb
    split at hb
    · simp only [Option.bind_eq_some_iff] at hb
      obtain ⟨after, hafter, hrest⟩ := hb
      refine ih (h.finishNode hafter) hrest ?_
      simp only [TreeBuilder.finishNode, Option.bind_eq_bind, Option.bind_eq_some_iff]
        at hafter
      obtain ⟨_, _, _, _, heq⟩ := hafter
      cases heq
      simp only [List.length_dropLast]
      omega
    · rename_i hnone
      cases hb
      refine ⟨h, fun innermost hin => ?_⟩
      by_contra hlt
      exact hnone ⟨innermost, hin, by omega⟩

theorem resumeNode (h : Nested resumed b)
    (hb : b.resumeNode row finish = some b') : Nested True b' := by
  simp only [TreeBuilder.resumeNode, Option.bind_eq_bind, Option.bind_eq_some_iff] at hb
  obtain ⟨after, hafter, hb⟩ := hb
  obtain ⟨hnested, hinner⟩ := h.finishPast hafter (Nat.le_refl _)
  split at hb
  · cases hb
    exact hnested.imp fun _ => trivial
  · rename_i hopen
    split at hb
    · rename_i hlast
      cases hb
      have hcloses : (brackets after.rows).getLast? = some .closes := by
        obtain ⟨found, hfound, htag⟩ := Option.map_eq_some_iff.mp hlast.2
        rw [brackets, List.getLast?_map, hfound, Option.map_some, htag]
        rfl
      obtain ⟨front, hfront⟩ := List.getLast?_eq_some_iff.mp hcloses
      have hlength : after.rows.length - 1 = front.length := by
        have := congrArg List.length hfront
        simp [brackets] at this
        omega
      have hstand : ∃ outer, standing 0 [] front = some (row :: outer) := by
        rcases hnested.finished row hlast.1 with hin | ⟨close, ⟨hclose, outer, houter⟩, hlater⟩
        · obtain ⟨innermost, hinnermost⟩ :=
            Option.isSome_iff_exists.mp (List.getLast?_isSome.mpr (List.ne_nil_of_mem hin.1))
          have hle := hnested.open_le hin.1 hinnermost
          have hge := hinner innermost hinnermost
          rw [hinnermost] at hopen
          exact absurd (congrArg some (Nat.le_antisymm hge hle)) hopen
        · have hat : (brackets after.rows)[front.length]? = some .closes := by simp [hfront]
          have hbound := (List.getElem?_eq_some_iff.mp hclose).1
          rw [hfront, List.length_append, List.length_singleton] at hbound
          have heq : close = front.length := by
            rcases Nat.lt_trichotomy close front.length with hlt | heq | hgt
            · exact absurd hat (hlater _ hlt)
            · exact heq
            · omega
          rw [hfront, heq, List.take_left] at houter
          exact ⟨outer, houter⟩
      obtain ⟨outer, houter⟩ := hstand
      have hrest : after.openRows.reverse = outer := by
        have hstands := hnested.stands
        rw [hfront, standing_snoc houter] at hstands
        simp only [next, Option.some.injEq] at hstands
        exact hstands.symm
      have hbelow : ∀ p ∈ row :: outer, p < front.length := by
        intro p hp
        have := (standing_between houter hp).2
        omega
      have hdrop : TreeBuilder.dropFrom front.length after.openRows = after.openRows := by
        have hsame := @dropFrom_append front.length [] outer (by simp)
          (fun p hp => hbelow p (List.mem_cons_of_mem _ hp))
        rw [← hrest] at hsame
        simpa using hsame
      have hrows : brackets (after.rows.take front.length) = front := by
        rw [brackets, List.map_take]
        have htake : (brackets after.rows).take front.length = front := by
          rw [hfront, List.take_left]
        exact htake
      constructor
      · simp only [TreeBuilder.truncate, hlength, hdrop, hrows, List.reverse_append,
          List.reverse_singleton, List.singleton_append, hrest]
        exact houter
      · intro row' hrow'
        simp only [TreeBuilder.truncate, hlength, Option.mem_def, Option.filter_eq_some_iff,
          hlast.1, Option.some.injEq] at hrow'
        refine .inl ⟨?_, trivial⟩
        rw [← hrow'.1]
        exact List.mem_append_right _ List.mem_cons_self
    · cases hb

theorem startNodeAt (h : Nested resumed b) {cp : Nat} {kind start : Int}
    (hstands : Stands (brackets b.rows) cp)
    (hb : b.startNodeAt cp kind start = some b') : Nested resumed b' := by
  unfold TreeBuilder.startNodeAt at hb
  split at hb
  · rename_i hcontract
    cases hb
    have hcp : cp ≤ (brackets b.rows).length := by
      rw [brackets, List.length_map]
      exact hcontract.2
    have hlength : ((brackets b.rows).take cp).length = cp := List.length_take_of_le hcp
    obtain ⟨inner, outer, houter, hinner, hopen, hge, hlt⟩ := h.split hstands
    -- the innermost open row is before the checkpoint, so that all are
    have hnil : inner = [] := by
      cases inner with
      | nil => rfl
      | cons p inner =>
        have hlow := hcontract.1 p (by
          rw [hopen, List.reverse_cons, ← List.append_assoc, List.getLast?_concat]
          rfl)
        have hhigh := hge p List.mem_cons_self
        omega
    subst hnil
    rw [List.reverse_nil, List.append_nil] at hopen
    have hrows : brackets (b.rows.take cp ++ ⟨.opens, kind, start, -1⟩ :: b.rows.drop cp) =
        (brackets b.rows).take cp ++ .opens :: (brackets b.rows).drop cp := by
      simp [brackets, EventTag.bracket]
    have hmoved : ∀ {bs : List Bracket} {inner : List Nat}, standing cp [] bs = some inner →
        standing 0 [] ((brackets b.rows).take cp ++ .opens :: bs) =
          some (inner.map (· + 1) ++ cp :: outer) := by
      intro bs inner hin
      have hshift := standing_shift 1 cp [] bs
      rw [hin, List.map_nil, Option.map_some] at hshift
      have hunder := standing_under hshift (cp :: outer)
      rw [standing_append, houter, Option.bind_some, Nat.zero_add, hlength]
      simp only [standing, next, Option.bind_some]
      exact hunder
    constructor
    · rw [hrows, hmoved hinner, hopen]
      simp
    · intro row hrow
      simp only [Option.mem_def, Option.map_eq_some_iff] at hrow
      obtain ⟨row, hrow, rfl⟩ := hrow
      rcases h.finished row hrow with hin | ⟨close, hclose, hlast⟩
      · refine .inl ⟨?_, hin.2⟩
        have hbefore : row < cp := by
          apply hlt
          have hmem := hin.1
          rw [hopen] at hmem
          exact List.mem_reverse.mp hmem
        rw [TreeBuilder.shifted, if_neg (by omega)]
        exact List.mem_append_left _ hin.1
      · obtain ⟨hcloses, around, haround⟩ := hclose
        have hbound := (List.getElem?_eq_some_iff.mp hcloses).1
        have hinside : row < close := by
          have := (standing_between haround List.mem_cons_self).2
          rw [List.length_take_of_le (Nat.le_of_lt hbound)] at this
          omega
        refine .inr ?_
        by_cases hbefore : row < cp
        · have hcloseBefore := closes_before hbefore hstands hcloses haround
          refine ⟨close, ⟨?_, around, ?_⟩, ?_⟩
          · rw [hrows, List.getElem?_append_left (by omega),
              List.getElem?_take_of_lt hcloseBefore, hcloses]
          · rw [TreeBuilder.shifted, if_neg (by omega), hrows,
              List.take_append_of_le_length (by omega), List.take_take,
              Nat.min_eq_left (Nat.le_of_lt hcloseBefore), haround]
          · intro later hlater hsome
            rw [hrows, List.getElem?_append] at hsome
            split at hsome
            · rw [List.getElem?_take_of_lt (by omega)] at hsome
              exact hlast later hlater hsome
            · rw [hlength, List.getElem?_cons] at hsome
              split at hsome
              · cases hsome
              · rw [List.getElem?_drop] at hsome
                exact hlast _ (by omega) hsome
        · obtain ⟨within, before, hbeforeStands, hwithin, heq⟩ :=
            standing_prefix (show cp ≤ close by omega) (Nat.le_of_lt hbound) hstands haround
          have hsame : before = outer := by
            rw [houter, Option.some.injEq] at hbeforeStands
            exact hbeforeStands.symm
          subst hsame
          cases within with
          | nil =>
            have hlow := hlt row (by
              rw [List.nil_append] at heq
              rw [← heq]
              exact List.mem_cons_self)
            omega
          | cons p within =>
            rw [List.cons_append, List.cons.injEq] at heq
            rw [← heq.1] at hwithin
            refine ⟨close + 1, ⟨?_, within.map (· + 1) ++ cp :: before, ?_⟩, ?_⟩
            · rw [hrows, List.getElem?_append_right (by omega), hlength,
                List.getElem?_cons, if_neg (by omega), List.getElem?_drop]
              rw [← hcloses]
              congr 1
              omega
            · rw [TreeBuilder.shifted, if_pos (by omega), hrows,
                List.take_append, List.take_of_length_le (by omega), hlength]
              have hcount : close + 1 - cp = (close - cp) + 1 := by omega
              rw [hcount, List.take_succ_cons]
              exact hmoved hwithin
            · intro later hlater hsome
              rw [hrows, List.getElem?_append_right (by omega), hlength,
                List.getElem?_cons, if_neg (by omega), List.getElem?_drop] at hsome
              exact hlast _ (by omega) hsome
  · cases hb

end Nested

end Wado.Gale
