/-
What the tables of the walk hold: the indexes reach every chain they must end,
temps are named by position, and a chain's old temp is only ever dropped.
-/
import Wado.Wir.ReuseLoads

namespace Wado.Wir

open List

variable {Op Ty : Type}

namespace Avail

variable {keys : List Key} {avail : Avail} {chain c id : Nat}

/-- Every chain is found by its root and by each of its fields. -/
def Indexed (keys : List Key) (avail : Avail) : Prop :=
  ∀ c id, avail.get c = some id → ∃ key, keys[c]? = some key ∧ c ∈ avail.byRoot key.root ∧
    ∀ field ∈ key.fields, c ∈ avail.byField field.2

theorem lookup_filter_ne (chains : List (Nat × Nat)) (chain c : Nat) :
    (chains.filter (·.1 ≠ chain)).lookup c = if c = chain then none else chains.lookup c := by
  induction chains with
  | nil => simp
  | cons entry chains ih =>
    obtain ⟨d, id⟩ := entry
    by_cases hd : d = chain
    · subst hd
      rw [filter_cons_of_neg (by simp), ih, lookup_cons]
      by_cases hc : c = d
      · simp [hc]
      · have hne : (c == d) = false := by simpa using hc
        rw [hne, if_neg hc]
    · rw [filter_cons_of_pos (by simpa using hd), lookup_cons, lookup_cons, ih]
      by_cases hc : c = d
      · subst hc
        simp [hd]
      · have hne : (c == d) = false := by simpa using hc
        rw [hne]

theorem mem_of_lookup {chains : List (Nat × Nat)} (h : chains.lookup c = some id) :
    (c, id) ∈ chains := by
  induction chains with
  | nil => cases h
  | cons entry chains ih =>
    obtain ⟨d, id'⟩ := entry
    rw [lookup_cons] at h
    by_cases hc : c = d
    · subst hc
      simp only [BEq.rfl, Option.some.injEq] at h
      simp [h]
    · have hne : (c == d) = false := by simpa using hc
      rw [hne] at h
      exact mem_cons_of_mem _ (ih h)

variable (fields : List (Nat × Ident))

theorem mem_insertAll (chain : Nat) (byField : Ident → List Nat) (f : Ident) :
    c ∈ fields.foldl (fun byField field =>
        Function.update byField field.2 ((byField field.2).insert chain)) byField f ↔
      c ∈ byField f ∨ (c = chain ∧ f ∈ fields.map Prod.snd) := by
  induction fields generalizing byField with
  | nil => simp
  | cons field fields ih =>
    rw [foldl_cons, ih]
    by_cases hf : f = field.2
    · subst hf
      simp [mem_insert_iff]
      tauto
    · simp [hf]

theorem mem_filterAll (chain : Nat) (byField : Ident → List Nat) (f : Ident) :
    c ∈ fields.foldl (fun byField field =>
        Function.update byField field.2 ((byField field.2).filter (· ≠ chain))) byField f ↔
      c ∈ byField f ∧ (c = chain → f ∉ fields.map Prod.snd) := by
  induction fields generalizing byField with
  | nil => simp
  | cons field fields ih =>
    rw [foldl_cons, ih]
    by_cases hf : f = field.2
    · subst hf
      simp
      tauto
    · simp [hf]

theorem get_insert {key : Key} (hkey : keys[chain]? = some key) {new : Nat} :
    (avail.insert keys chain new).get c = if c = chain then some new else avail.get c := by
  unfold insert get
  rw [hkey]
  dsimp only
  rw [lookup_cons, lookup_filter_ne]
  by_cases hc : c = chain
  · simp [hc]
  · have hne : (c == chain) = false := by simpa using hc
    rw [hne, if_neg hc, if_neg hc]

theorem insert_indexed {key : Key} (hkey : keys[chain]? = some key) {new : Nat}
    (h : avail.Indexed keys) : (avail.insert keys chain new).Indexed keys := by
  intro d id hget
  rw [get_insert hkey] at hget
  unfold insert
  rw [hkey]
  dsimp only
  by_cases hd : d = chain
  · subst hd
    refine ⟨key, hkey, by simp, ?_⟩
    intro field hfield
    rw [mem_insertAll]
    exact Or.inr ⟨rfl, mem_map_of_mem hfield⟩
  · rw [if_neg hd] at hget
    obtain ⟨key', hkey', hroot, hfields⟩ := h d id hget
    refine ⟨key', hkey', ?_, ?_⟩
    · by_cases hsame : key'.root = key.root
      · rw [hsame] at hroot
        simp [hsame, hroot]
      · rw [Function.update_of_ne hsame]
        exact hroot
    · intro field hfield
      rw [mem_insertAll]
      exact Or.inl (hfields field hfield)

theorem get_forget (h : avail.Indexed keys) :
    (avail.forget keys chain).get c = if c = chain then none else avail.get c := by
  unfold forget
  cases hget : avail.get chain with
  | none =>
    rw [if_pos rfl]
    by_cases hc : c = chain
    · rw [if_pos hc, hc, hget]
    · rw [if_neg hc]
  | some id =>
    obtain ⟨key, hkey, -, -⟩ := h chain id hget
    rw [if_neg (by simp), hkey]
    exact lookup_filter_ne avail.chains chain c

theorem forget_indexed (h : avail.Indexed keys) : (avail.forget keys chain).Indexed keys := by
  intro d id hd
  rw [get_forget h] at hd
  by_cases hdc : d = chain
  · rw [if_pos hdc] at hd
    cases hd
  rw [if_neg hdc] at hd
  obtain ⟨key', hkey', hroot, hfields⟩ := h d id hd
  unfold forget
  cases hget : avail.get chain with
  | none =>
    rw [if_pos rfl]
    exact ⟨key', hkey', hroot, hfields⟩
  | some id' =>
    obtain ⟨key, hkey, -, -⟩ := h chain id' hget
    rw [if_neg (by simp), hkey]
    dsimp only
    refine ⟨key', hkey', ?_, ?_⟩
    · by_cases hsame : key'.root = key.root
      · rw [hsame] at hroot ⊢
        simp [hroot, hdc]
      · rw [Function.update_of_ne hsame]
        exact hroot
    · intro field hfield
      rw [mem_filterAll]
      exact ⟨hfields field hfield, fun heq => absurd heq hdc⟩

section

variable (h : avail.Indexed keys)
include h

theorem get_forgetAll (ended : List Nat) :
    (ended.foldl (forget keys) avail).Indexed keys ∧ ∀ c, (ended.foldl (forget keys) avail).get c =
        if c ∈ ended then none else avail.get c := by
  induction ended generalizing avail with
  | nil => simp [h]
  | cons chain ended ih =>
    obtain ⟨hindexed, hget⟩ := ih (@forget_indexed keys avail chain h)
    refine ⟨hindexed, ?_⟩
    intro c
    rw [foldl_cons, hget, get_forget h]
    by_cases hc : c = chain
    · simp [hc]
    · simp [hc]

theorem retain_indexed (keep : Nat → Nat → Bool) :
    (avail.retain keys keep).Indexed keys :=
  (get_forgetAll h _).1

theorem of_get_retain {keep : Nat → Nat → Bool} (hget : (avail.retain keys keep).get c = some id) :
    avail.get c = some id ∧ keep c id = true := by
  rw [retain, (get_forgetAll h _).2] at hget
  split at hget
  · cases hget
  next hnot =>
    refine ⟨hget, ?_⟩
    by_contra hkeep
    apply hnot
    refine mem_map.mpr ⟨(c, id), mem_filter.mpr ⟨mem_of_lookup hget, ?_⟩, rfl⟩
    simpa using hkeep

end

theorem empty_indexed : Indexed keys empty := by
  intro c id h
  cases h

theorem forgetWritten_indexed (h : avail.Indexed keys) (writes : Footprint) :
    (avail.forgetWritten keys writes).Indexed keys := by
  unfold forgetWritten
  split
  · exact empty_indexed
  · exact (get_forgetAll h _).1

/-- What the writes leave: chains whose root and fields are not written. -/
structure Unwritten (writes : Footprint) (key : Key) : Prop where
  call : writes.call = false
  root : key.root ∉ writes.locals
  fields : ∀ field ∈ key.fields, field.2 ∉ writes.fields

theorem of_get_forgetWritten (h : avail.Indexed keys) {writes : Footprint}
    (hget : (avail.forgetWritten keys writes).get c = some id) :
    avail.get c = some id ∧ ∃ key, keys[c]? = some key ∧ Unwritten writes key := by
  unfold forgetWritten at hget
  split at hget
  · cases hget
  next hcall =>
    rw [(get_forgetAll h _).2] at hget
    split at hget
    · cases hget
    next hnot =>
      obtain ⟨key, hkey, hroot, hfields⟩ := h c id hget
      simp only [mem_append, mem_flatMap, not_or, not_exists, not_and] at hnot
      refine ⟨hget, key, hkey, by simpa using hcall, ?_, ?_⟩
      · exact fun hin => hnot.1 key.root hin hroot
      · exact fun field hfield hin => hnot.2 field.2 hin (hfields field hfield)

theorem Indexed.grow {keys' : List Key} (hkeys : keys <+: keys') (h : avail.Indexed keys) :
    avail.Indexed keys' := by
  intro d id hget
  obtain ⟨key, hkey, hroot, hfields⟩ := h d id hget
  obtain ⟨more, rfl⟩ := hkeys
  refine ⟨key, ?_, hroot, hfields⟩
  rw [List.getElem?_append_left (List.getElem?_eq_some_iff.mp hkey).1]
  exact hkey

end Avail

namespace Reuser

/-- What holds of the walk's state at every point. -/
structure Sound (taken : List Ident) (reuser : Reuser Ty) : Prop where
  indexed : reuser.avail.Indexed reuser.keys
  defined : ∀ c id, reuser.avail.get c = some id → id < reuser.temps.length
  named : ∀ id temp, reuser.temps[id]? = some temp → temp.name = loadName id
  fresh : reuser.panicked = false → ∀ id, id < reuser.temps.length → loadName id ∉ taken

/-- What a walk does to the state before it: it learns keys, mints temps and
marks them used, and drops chains it had. -/
structure Extends (before after : Reuser Ty) : Prop where
  keys : before.keys <+: after.keys
  temps : ∀ (id : Nat) (temp : Temp Ty), before.temps[id]? = some temp →
    ∃ temp' : Temp Ty, after.temps[id]? = some temp' ∧ (temp.used = true → temp'.used = true)
  old : ∀ c id, after.avail.get c = some id → id < before.temps.length →
    before.avail.get c = some id
  panicked : after.panicked = false → before.panicked = false

theorem Extends.length_le {a b : Reuser Ty} (h : Extends a b) :
    a.temps.length ≤ b.temps.length := by
  by_contra hlt
  have hlast : b.temps.length < a.temps.length := not_le.mp hlt
  obtain ⟨temp', htemp', -⟩ := h.temps _ _ (List.getElem?_eq_getElem hlast)
  have hlt' := (List.getElem?_eq_some_iff.mp htemp').1
  omega

theorem Extends.refl (a : Reuser Ty) : Extends a a :=
  ⟨prefix_refl _, fun _ temp h => ⟨temp, h, fun hused => hused⟩, fun _ _ h _ => h, fun h => h⟩

theorem Extends.trans {a b c : Reuser Ty} (h : Extends a b) (h' : Extends b c) : Extends a c := by
  refine ⟨h.keys.trans h'.keys, ?_, ?_, fun hpanic => h.panicked (h'.panicked hpanic)⟩
  · intro id temp htemp
    obtain ⟨temp', htemp', hused'⟩ := h.temps id temp htemp
    obtain ⟨temp'', htemp'', hused''⟩ := h'.temps id temp' htemp'
    exact ⟨temp'', htemp'', fun hused => hused'' (hused' hused)⟩
  · intro chain id hget hlt
    exact h.old chain id (h'.old chain id hget (hlt.trans_le h.length_le)) hlt

variable {taken : List Ident} {reuser : Reuser Ty}

theorem start_sound : Sound taken (start : Reuser Ty) where
  indexed := Avail.empty_indexed
  defined _ _ h := by cases h
  named _ _ h := by cases h
  fresh _ _ h := by cases h

variable {before after : Reuser Ty}

variable {avail : Avail}

/-- Going back to an earlier table, after more was learned. -/
theorem Sound.back (h : Sound taken after)
    (hextends : Extends before after) (hindexed : avail.Indexed before.keys)
    (hdefined : ∀ c id, avail.get c = some id → id < before.temps.length) :
    Sound taken (after.back avail) where
  indexed := hindexed.grow hextends.keys
  defined c id hget := (hdefined c id hget).trans_le hextends.length_le
  named := h.named
  fresh := h.fresh

theorem Extends.back (h : Extends before after)
    (hold : ∀ c id, avail.get c = some id → before.avail.get c = some id) :
    Extends before (after.back avail) :=
  ⟨h.keys, h.temps, fun c id hget _ => hold c id hget, h.panicked⟩

theorem Sound.cut (h : Sound taken reuser) (writes : Footprint) :
    Sound taken (reuser.cut writes) where
  indexed := Avail.forgetWritten_indexed h.indexed writes
  defined c id hget := h.defined c id (Avail.of_get_forgetWritten h.indexed hget).1
  named := h.named
  fresh := h.fresh

theorem Extends.cut (h : Sound taken reuser) (writes : Footprint) :
    Extends reuser (reuser.cut writes) :=
  ⟨prefix_refl _, fun _ temp htemp => ⟨temp, htemp, fun hused => hused⟩,
    fun _ _ hget _ => (Avail.of_get_forgetWritten h.indexed hget).1, fun hpanic => hpanic⟩

/-- The meeting of arms keeps chains from before the arms only. -/
theorem Sound.meet {ends : List (Option Avail)}
    (h : Sound taken before) (h' : Sound taken after) (hextends : Extends before after) :
    Sound taken (after.meet before.avail ends) ∧ Extends before (after.meet before.avail ends) := by
  have hindexed := h.indexed.grow hextends.keys
  refine ⟨⟨Avail.retain_indexed hindexed _, ?_, h'.named, h'.fresh⟩,
    hextends.keys, hextends.temps, ?_, hextends.panicked⟩
  · intro c id hget
    exact (h.defined c id (Avail.of_get_retain hindexed hget).1).trans_le hextends.length_le
  · intro c id hget _
    exact (Avail.of_get_retain hindexed hget).1

theorem know_keys (key : Key) (reuser : Reuser Ty) : reuser.keys <+: (reuser.know key).keys := by
  unfold know
  dsimp only
  split
  · exact prefix_refl _
  · exact prefix_append _ _

theorem keys_position (key : Key) (reuser : Reuser Ty) :
    (reuser.know key).keys[(reuser.know key).position key]? = some key := by
  have hin : key ∈ (reuser.know key).keys := by
    unfold know
    dsimp only
    split
    next hin => exact hin
    · simp
  unfold position
  rw [List.getElem?_eq_some_iff]
  exact ⟨idxOf_lt_length_iff.mpr hin, getElem_idxOf _⟩

theorem Sound.know (h : Sound taken reuser) (key : Key) :
    Sound taken (reuser.know key) ∧ Extends reuser (reuser.know key) :=
  ⟨⟨h.indexed.grow (know_keys key reuser), h.defined, h.named, h.fresh⟩,
    know_keys key reuser, fun _ temp htemp => ⟨temp, htemp, fun hused => hused⟩,
    fun _ _ hget _ => hget, fun hpanic => hpanic⟩

theorem Sound.use (h : Sound taken reuser) (id : Nat) :
    Sound taken (reuser.use id) ∧ Extends reuser (reuser.use id) := by
  refine ⟨⟨h.indexed, ?_, ?_, ?_⟩, prefix_refl _, ?_, fun _ _ hget _ => hget,
    fun hpanic => hpanic⟩
  · simpa [Reuser.use] using h.defined
  · intro other temp htemp
    simp only [Reuser.use, List.getElem?_modify] at htemp
    obtain ⟨temp', htemp', rfl⟩ := Option.map_eq_some_iff.mp htemp
    have hname := h.named other temp' htemp'
    split <;> exact hname
  · simpa [Reuser.use] using h.fresh
  · intro other temp htemp
    simp only [Reuser.use, List.getElem?_modify, htemp]
    refine ⟨_, rfl, ?_⟩
    intro hused
    split
    · rfl
    · exact hused

theorem getElem?_mint (taken : List Ident) (chain : Nat) (ty : Ty) {id : Nat} {temp : Temp Ty}
    (h : reuser.temps[id]? = some temp) : (reuser.mint taken chain ty).temps[id]? = some temp := by
  show (reuser.temps ++ _)[id]? = some temp
  rw [List.getElem?_append_left (List.getElem?_eq_some_iff.mp h).1]
  exact h

theorem Sound.mint (h : Sound taken reuser) {chain : Nat} {key : Key}
    (hkey : reuser.keys[chain]? = some key) (ty : Ty) :
    Sound taken (reuser.mint taken chain ty) ∧ Extends reuser (reuser.mint taken chain ty) := by
  have hlength : (reuser.mint taken chain ty).temps.length = reuser.temps.length + 1 := by
    simp [Reuser.mint]
  have hget : ∀ c id, (reuser.mint taken chain ty).avail.get c = some id →
      (c = chain ∧ id = reuser.temps.length) ∨ reuser.avail.get c = some id := by
    intro c id hget
    rw [Reuser.mint, Avail.get_insert hkey] at hget
    split at hget
    next hc => exact Or.inl ⟨hc, (Option.some.inj hget).symm⟩
    · exact Or.inr hget
  refine ⟨⟨Avail.insert_indexed hkey h.indexed, ?_, ?_, ?_⟩, prefix_refl _, ?_, ?_, ?_⟩
  · intro c id hc
    rw [hlength]
    rcases hget c id hc with ⟨-, rfl⟩ | hold
    · omega
    · exact (h.defined c id hold).trans (by omega)
  · intro id temp htemp
    change (reuser.temps ++ [_])[id]? = some temp at htemp
    rw [List.getElem?_append] at htemp
    split at htemp
    · exact h.named id temp htemp
    next hge =>
      obtain ⟨hlt, htemp⟩ := List.getElem?_eq_some_iff.mp htemp
      have hid : id = reuser.temps.length := by
        simp only [length_singleton] at hlt
        omega
      subst hid
      simp only [Nat.sub_self, getElem_cons_zero] at htemp
      rw [← htemp]
  · intro hpanic id hid
    simp only [Reuser.mint, Bool.or_eq_false_iff] at hpanic
    rw [hlength] at hid
    rcases Nat.lt_succ_iff_lt_or_eq.mp hid with hlt | rfl
    · exact h.fresh hpanic.1 id hlt
    · simpa using hpanic.2
  · intro id temp htemp
    exact ⟨temp, getElem?_mint taken chain ty htemp, fun hused => hused⟩
  · intro c id hc hlt
    rcases hget c id hc with ⟨-, rfl⟩ | hold
    · omega
    · exact hold
  · intro hpanic
    simp only [Reuser.mint, Bool.or_eq_false_iff] at hpanic
    exact hpanic.1

end Reuser

end Wado.Wir

/-
One walk step by step: what it does to a node, and that it keeps its state
sound.
-/

namespace Wado.Wir

variable {Op Ty : Type} {taken : List Ident} {callees : Option CalleeWrites}

variable {operands : List (WirInstr Op Ty)}

variable {head : Head Op Ty}

namespace Key

theorem of_eq_some {key : Key} (h : Key.of (.node head operands) = some key) :
    ∃ typeId fieldName ty expr inner, head = .structGet typeId fieldName ty ∧
      operands = [expr] ∧ chain expr = some inner ∧
      key = { inner with fields := inner.fields ++ [(typeId, fieldName)] } := by
  obtain ⟨hchain, hfields⟩ := Option.filter_eq_some_iff.mp h
  unfold chain at hchain
  split at hchain
  next typeId fieldName ty expr heq =>
    obtain ⟨rfl, rfl⟩ := WirInstr.node.inj heq
    obtain ⟨inner, hinner, rfl⟩ := Option.map_eq_some_iff.mp hchain
    exact ⟨typeId, fieldName, ty, expr, inner, rfl, rfl, hinner, rfl⟩
  next name heq =>
    cases hchain
    simp at hfields
  · cases hchain

end Key

namespace WirInstr

variable {reuser : Reuser Ty}

theorem visit_node (h : Key.of (.node head operands) = none) :
    visit taken callees (.node head operands) reuser =
      (.node head (visitAll taken callees operands reuser).1,
        (visitAll taken callees operands reuser).2.cut
          (Footprint.writesOfNode callees head)) := by
  rw [visit.eq_def]
  simp only [h]

variable {typeId : Nat} {fieldName : Ident}

theorem visit_hit {ty : Ty} {key : Key} {id : Nat}
    (h : Key.of (.node (.structGet typeId fieldName ty) operands) = some key)
    (hget : (reuser.know key).avail.get ((reuser.know key).position key) = some id) :
    visit taken callees (.node (.structGet typeId fieldName ty) operands) reuser =
      (.node (.localGet (reuser.tempName id) ty) [], (reuser.know key).use id) := by
  rw [visit.eq_def]
  simp only [h, hget]

theorem visit_miss {ty : Ty} {key : Key}
    (h : Key.of (.node (.structGet typeId fieldName ty) operands) = some key)
    (hget : (reuser.know key).avail.get ((reuser.know key).position key) = none) :
    visit taken callees (.node (.structGet typeId fieldName ty) operands) reuser = (.node (.localTee
          (loadName (visitAll taken callees operands (reuser.know key)).2.temps.length))
          [.node (.structGet typeId fieldName ty)
            (visitAll taken callees operands (reuser.know key)).1],
        (visitAll taken callees operands (reuser.know key)).2.mint taken
          ((reuser.know key).position key) ty) := by
  rw [visit.eq_def]
  simp only [h, hget]

open Reuser in
mutual

/-- A walk keeps its state sound and only extends it. -/
theorem visit_sound : ∀ (callees : Option CalleeWrites) (instr : WirInstr Op Ty)
    (reuser : Reuser Ty), Sound taken reuser → Sound taken (instr.visit taken callees reuser).2 ∧
        Extends reuser (instr.visit taken callees reuser).2
  | callees, .block result body, reuser, h => by
    obtain ⟨hinside, hextends⟩ := visitAll_sound callees body reuser h
    have hback := hinside.back hextends h.indexed h.defined
    rw [visit]
    exact ⟨hback.cut _, (hextends.back fun _ _ hget => hget).trans (.cut hback _)⟩
  | callees, .loop body, reuser, h => by
    have hentry := h.cut (Footprint.writesAll callees body)
    obtain ⟨hinside, hextends⟩ := visitAll_sound callees body _ hentry
    rw [visit]
    exact ⟨hinside.back hextends hentry.indexed hentry.defined,
      (Extends.cut h _).trans (hextends.back fun _ _ hget => hget)⟩
  | callees, .ite condition result thenBody none, reuser, h => by
    obtain ⟨hfirst, hextends⟩ := visit_sound callees condition reuser h
    obtain ⟨hthen, hextends'⟩ :=
      visitAll_sound (armCallees thenBody callees) thenBody _ hfirst
    rw [visit]
    obtain ⟨hmeet, hextends''⟩ := hfirst.meet hthen hextends'
    exact ⟨hmeet, hextends.trans hextends''⟩
  | callees, .ite condition result thenBody (some elseBody), reuser, h => by
    obtain ⟨hfirst, hextends⟩ := visit_sound callees condition reuser h
    obtain ⟨hthen, hextends'⟩ :=
      visitAll_sound (armCallees thenBody callees) thenBody _ hfirst
    have hback := hthen.back hextends' hfirst.indexed hfirst.defined
    have hextendsBack := hextends'.back fun _ _ hget => hget
    obtain ⟨helse, hextends''⟩ :=
      visitAll_sound (armCallees elseBody callees) elseBody _ hback
    rw [visit]
    obtain ⟨hmeet, hextends'''⟩ := hfirst.meet helse (hextendsBack.trans hextends'')
    exact ⟨hmeet, hextends.trans hextends'''⟩
  | callees, .node head operands, reuser, h => by
    cases hkey : Key.of (.node head operands) with
    | none =>
      obtain ⟨hinside, hextends⟩ := visitAll_sound callees operands reuser h
      rw [visit_node hkey]
      exact ⟨hinside.cut _, hextends.trans (.cut hinside _)⟩
    | some key =>
      obtain ⟨typeId, fieldName, ty, expr, inner, rfl, -, -, -⟩ := Key.of_eq_some hkey
      obtain ⟨hknow, hextends⟩ := h.know key
      cases hget : (reuser.know key).avail.get ((reuser.know key).position key) with
      | some id =>
        rw [visit_hit hkey hget]
        obtain ⟨huse, hextends'⟩ := hknow.use id
        exact ⟨huse, hextends.trans hextends'⟩
      | none =>
        rw [visit_miss hkey hget]
        obtain ⟨hinside, hextends'⟩ := visitAll_sound callees operands _ hknow
        have hposition := keys_position key reuser
        obtain ⟨more, hmore⟩ := hextends'.keys
        rw [← List.getElem?_append_left (List.getElem?_eq_some_iff.mp hposition).1,
          hmore] at hposition
        obtain ⟨hmint, hextends''⟩ := hinside.mint hposition ty
        exact ⟨hmint, (hextends.trans hextends').trans hextends''⟩

theorem visitAll_sound : ∀ (callees : Option CalleeWrites) (instrs : List (WirInstr Op Ty))
    (reuser : Reuser Ty), Sound taken reuser →
      Sound taken (visitAll taken callees instrs reuser).2 ∧
        Extends reuser (visitAll taken callees instrs reuser).2
  | _, [], reuser, h => ⟨h, Extends.refl reuser⟩
  | callees, instr :: rest, reuser, h => by
    obtain ⟨hfirst, hextends⟩ := visit_sound callees instr reuser h
    obtain ⟨hrest, hextends'⟩ := visitAll_sound callees rest _ hfirst
    rw [visitAll]
    exact ⟨hrest, hextends.trans hextends'⟩

end

end WirInstr

end Wado.Wir
