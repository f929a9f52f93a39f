import Rebuild.Variable.Scopes
import Rebuild.Proofs.Computation
/-!
# Setting and reading variables

Setting a variable of a table changes nothing but that variable, and sets it unless one of a lower
rank is kept (`set_gives`). Looking a variable up in a chain of tables changes no value
(`keeps_lookup`), and merging a table keeps the variables that it does not have (`keeps_merge`).
Reading one of a table, or of one further out if the inner ones do not have it, gives its value
(`lookup_recursive`, `lookup_simple`, `lookup_append`).
-/

namespace Rebuild

open List Scopes

/-! ## Tables -/

section Lookup

variable {κ ν : Type} [BEq κ] [LawfulBEq κ] (l : List (κ × ν))

theorem lookup_map_replace (k k' : κ) (v : ν) :
    (l.map fun p => if p.1 == k then (k, v) else p).lookup k' =
      if k' == k then (l.lookup k).map fun _ => v else l.lookup k' := by
  induction l with
  | nil => simp
  | cons p l ih =>
    obtain ⟨x, y⟩ := p
    rw [map_cons]
    by_cases hx : x = k
    · subst hx
      simp only [beq_self_eq_true, if_true, lookup_cons]
      by_cases hk : k' == x
      · simp [hk]
      · rw [Bool.not_eq_true] at hk
        simp [hk, ih]
    · have hxk : (x == k) = false := by simpa using hx
      have hkx : (k == x) = false := by simpa using Ne.symm hx
      rw [if_neg (by simp [hxk]), lookup_cons, lookup_cons, lookup_cons, ih, hkx]
      by_cases hk' : k' = x
      · subst hk'
        simp [hxk]
      · have hk'x : (k' == x) = false := by simpa using hk'
        simp [hk'x]

theorem lookup_concat (k k' : κ) (v : ν) (h : l.lookup k = none) :
    (l ++ [(k, v)]).lookup k' = if k' == k then some v else l.lookup k' := by
  induction l with
  | nil => by_cases hk : k' == k <;> simp [lookup_cons, hk]
  | cons p l ih =>
    obtain ⟨x, y⟩ := p
    rw [lookup_cons] at h
    split at h
    · cases h
    · rename_i hkx
      rw [cons_append, lookup_cons, lookup_cons, ih h]
      by_cases hk' : k' = k
      · subst hk'
        simp [hkx]
      · have hk'k : (k' == k) = false := by simpa using hk'
        simp [hk'k]

theorem any_eq_isSome_lookup (k : κ) : (l.any (·.1 == k)) = (l.lookup k).isSome := by
  induction l with
  | nil => rfl
  | cons p l ih =>
    rw [any_cons, lookup_cons, ih]
    by_cases hk : p.1 = k
    · simp [hk]
    · have h1 : (p.1 == k) = false := by simpa using hk
      have h2 : (k == p.1) = false := by simpa using Ne.symm hk
      simp [h1, h2]

/-- Replacing a value that is there, or adding it at the end. -/
theorem lookup_replace (k k' : κ) (v : ν) :
    (if (l.lookup k).isSome then l.map fun p => if p.1 == k then (k, v) else p else l ++
      [(k, v)]).lookup k' =
      if k' == k then some v else l.lookup k' := by
  split
  · rename_i hsome
    obtain ⟨x, hx⟩ := Option.isSome_iff_exists.1 hsome
    rw [lookup_map_replace, hx]
    rfl
  · rename_i hnone
    exact lookup_concat l k k' v (Option.not_isSome_iff_eq_none.1 hnone)

end Lookup

variable {t : Table} {n : Text} {e : Entry}

namespace Table

theorem name_of_get? (h : t.get? n = some e) : e.name = n := by
  simpa using find?_some h

/-- The names of the variables. -/
def names (t : Table) : List Text := t.map (·.name)

/-- A variable that is set keeps its place, or comes last. -/
theorem names_put (t : Table) (e : Entry) :
    (t.put e).names = if (t.get? e.name).isSome then t.names else t.names ++ [e.name] := by
  unfold put names
  split
  · rw [map_map]
    refine map_congr_left fun x _ => ?_
    rw [Function.comp_apply]
    split
    · rename_i hx
      exact (eq_of_beq hx).symm
    · rfl
  · rw [map_append]
    rfl

/-- **A variable that was set is there, and the others are as they were.** -/
theorem get?_put (t : Table) (e : Entry) (n : Text) :
    (t.put e).get? n = if n = e.name then some e else t.get? n := by
  unfold put
  split
  · rename_i hsome
    have hname : ∀ x : Entry, (if x.name == e.name then e else x).name = x.name := by
      intro x
      split
      · rename_i hx
        exact (eq_of_beq hx).symm
      · rfl
    have hfind : get? (t.map fun x => if x.name == e.name then e else x) n =
        (t.get? n).map fun x => if x.name == e.name then e else x := by
      unfold get?
      rw [find?_map]
      congr 2
      funext x
      exact congrArg (· == n) (hname x)
    rw [hfind]
    split
    · rename_i hn
      subst hn
      obtain ⟨x, hx⟩ := Option.isSome_iff_exists.1 hsome
      rw [hx, Option.map_some, name_of_get? hx, if_pos (by simp)]
    · rename_i hn
      cases hx : t.get? n with
      | none => rfl
      | some x => rw [Option.map_some, name_of_get? hx, if_neg (by simpa using hn)]
  · rename_i hnone
    rw [Bool.not_eq_true, Option.isSome_eq_false_iff, Option.isNone_iff_eq_none] at hnone
    unfold get? at hnone ⊢
    rw [find?_append]
    split
    · rename_i hn
      rw [hn, hnone]
      simp
    · rename_i hn
      have hne : (e.name == n) = false := by simpa using fun h => hn h.symm
      simp [hne]

end Table

namespace Scopes

theorem table_setTable (s : Scopes) (k k' : ScopeName) (t : Table) :
    (s.setTable k t).table k' = if k' = k then t else s.table k' := by
  unfold setTable table
  rw [any_eq_isSome_lookup, lookup_replace]
  by_cases hk : k' = k <;> simp [hk]

theorem get?_put (s : Scopes) (k k' : ScopeName) (e : Entry) (n : Text) :
    ((s.put k e).table k').get? n = if k' = k ∧
    n = e.name then some e else (s.table k').get? n := by
  unfold put
  rw [table_setTable]
  by_cases hk : k' = k
  · rw [if_pos hk, Table.get?_put, hk]
    simp
  · rw [if_neg hk, if_neg fun h => hk h.1]

/-- The two have the same variables but for one. -/
def AgreeOff (k : ScopeName) (name : Text) (a b : Scopes) : Prop :=
  ∀ k' n, k' ≠ k ∨ n ≠ name → (b.table k').get? n = (a.table k').get? n

theorem agreeOff_put (s : Scopes) (k : ScopeName) (e : Entry) :
    AgreeOff k e.name s (s.put k e) := by
  intro k' n h
  rw [get?_put, if_neg]
  rintro ⟨rfl, rfl⟩
  simp at h

/-- The two have the same variables in the same order, up to which of them were read. -/
structure SameValues (a b : Scopes) : Prop where
  names : ∀ k, (b.table k).names = (a.table k).names
  values : ∀ k n, ((b.table k).get? n).map ({ · with isRead := false }) =
    ((a.table k).get? n).map ({ · with isRead := false })

theorem sameValues_refl (a : Scopes) : SameValues a a := ⟨fun _ => rfl, fun _ _ => rfl⟩

variable {a b c s : Scopes} {k : ScopeName}

theorem SameValues.trans (h1 : SameValues a b) (h2 : SameValues b c) : SameValues a c where
  names k := (h2.names k).trans (h1.names k)
  values k n := (h2.values k n).trans (h1.values k n)

theorem sameValues_put (he : (s.table k).get? n = some e) :
    SameValues s (s.put k { e with isRead := true }) := by
  obtain rfl := Table.name_of_get? he
  constructor
  · intro k'
    rw [put, table_setTable]
    split
    · rename_i h
      rw [h, Table.names_put, if_pos (by rw [he]; rfl)]
    · rfl
  · intro k' n'
    rw [get?_put]
    split
    · rename_i h
      rw [h.1, h.2, he]
      rfl
    · rfl

/-- The two have the same variables of a name, up to which of them were read. -/
def SameAt (n : Text) (a b : Scopes) : Prop :=
  ∀ k, ((b.table k).get? n).map ({ · with isRead := false }) =
    ((a.table k).get? n).map ({ · with isRead := false })

theorem table_eq_nil (hk : k ∉ s.map (·.1)) : s.table k = [] := by
  have hnone : s.lookup k = none := by
    rw [lookup_eq_none_iff]
    intro p hp
    simpa using fun e : k = p.1 => hk (mem_map.2 ⟨p, hp, e.symm⟩)
  rw [table, hnone, Option.getD_none]

-- only tables of one of the two can tell them apart
instance (n : Text) (a b : Scopes) : Decidable (a.SameAt n b) :=
  decidable_of_iff (∀ k ∈ a.map (·.1) ++ b.map (·.1),
      ((b.table k).get? n).map ({ · with isRead := false }) =
        ((a.table k).get? n).map ({ · with isRead := false })) <| by
    refine ⟨fun h k => ?_, fun h k _ => h k⟩
    by_cases hk : k ∈ a.map (·.1) ++ b.map (·.1)
    · exact h k hk
    · rw [mem_append, not_or] at hk
      rw [table_eq_nil hk.1, table_eq_nil hk.2]

theorem SameValues.sameAt (h : SameValues a b) (n : Text) : SameAt n a b := fun k => h.values k n

theorem SameAt.trans (h1 : SameAt n a b) (h2 : SameAt n b c) : SameAt n a c :=
  fun k => (h2 k).trans (h1 k)

theorem sameAt_put (s : Scopes) (k : ScopeName) (he : e.name ≠ n) : SameAt n s (s.put k e) := by
  intro k'
  rw [get?_put, if_neg fun h => he h.2.symm]

theorem SameAt.exists_entry (h : SameAt n a b) (he : (a.table k).get? n = some e) :
    ∃ r, (b.table k).get? n = some { e with isRead := r } := by
  have hn := h k
  rw [he] at hn
  obtain ⟨e', he', hread⟩ := Option.map_eq_some_iff.1 hn
  refine ⟨e'.isRead, he'.trans (congrArg some ?_)⟩
  exact congrArg ({ · with isRead := e'.isRead }) hread

theorem SameAt.get?_eq_none (h : SameAt n a b) (hn : (a.table k).get? n = none) :
    (b.table k).get? n = none := by
  have hb := h k
  rw [hn] at hb
  exact Option.map_eq_none_iff.1 hb

end Scopes

/-! ## Reading and setting -/

namespace ScopeM

variable {k : ScopeName} {name : Text} {a b : Scopes} {rs rs' : List Remark}
  {s s' : Scopes × List Remark} {x : Expansion} {value : Text} {r : Option Binding}
  {origin : Origin} {isRead : Bool} {outer : List ScopeName}

@[simp] theorem gives_scopes {r : Scopes} : Gives scopes s r s' ↔ s.1 = r ∧ s = s' := by
  constructor
  · intro h
    replace h := h.of_get
    exact gives_pure.1 h
  · rintro ⟨rfl, rfl⟩
    rfl

@[simp] theorem gives_update {f : Scopes → Scopes} {u : PUnit} :
    Gives (update f) s u s' ↔ (f s.1, s.2) = s' := gives_modify

/-- The tables stay as they are. -/
def SameScopes (s s' : Scopes × List Remark) : Prop := s'.1 = s.1

instance : IsPreorder (Scopes × List Remark) SameScopes where
  refl _ := rfl
  trans _ _ _ h₁ h₂ := h₂.trans h₁

theorem keeps_remark (r : Remark) : Keeps SameScopes (remark r) := keeps_modify fun _ => rfl

theorem keeps_readText (name value : Text) : Keeps SameScopes (readText name value) := by
  unfold readText
  rcases (Expansion.parseText value (place name)).outcome with ⟨outcome, notices⟩
  exact keeps_bind (keeps_forM fun n => keeps_remark _) fun _ => keeps_ofExcept outcome

/-- Reading a variable at most marks it as read. -/
theorem readEntry_gives (h : Gives (readEntry k e) (a, rs) x (b, rs')) :
    b = a ∨ b = a.put k { e with isRead := true } := by
  unfold readEntry at h
  split at h
  · cases (gives_ofExcept.1 h).2
    exact .inl rfl
  · obtain ⟨y, ⟨a1, rs1⟩, hread, h⟩ := h.of_bind
    obtain ⟨_, hput, -⟩ := h.of_pure
    have hsame : a1 = a := (keeps_readText _ _).of_gives hread
    cases gives_update.1 hput
    exact .inr (by rw [hsame])

theorem readText_value (h : Gives (readText name value) s x s') :
    (Expansion.parseText value (place name)).outcome.1 = .ok x := by
  unfold readText at h
  generalize (Expansion.parseText value (place name)).outcome = p at h ⊢
  obtain ⟨outcome, notices⟩ := p
  obtain ⟨_, s1, -, h⟩ := h.of_bind
  exact (gives_ofExcept.1 h).1

theorem readEntry_value (h : Gives (readEntry k e) s x s') :
    (Expansion.parseText e.value (place e.name)).outcome.1 = .ok x := by
  unfold readEntry at h
  split at h
  · exact (gives_ofExcept.1 h).1
  · obtain ⟨y, s1, hread, h⟩ := h.of_bind
    obtain ⟨_, -, rfl⟩ := h.of_pure
    exact readText_value hread

theorem lookup_gives (h : Gives (lookup [k] name) (a, rs) r (b, rs')) :
    (r = none ∧ (a.table k).get? name = none ∧ b = a) ∨
      ∃ e v, (a.table k).get? name = some e ∧ r = some v ∧ v.origin = e.origin ∧
        (b = a ∨ b = a.put k { e with isRead := true }) := by
  rw [lookup] at h
  obtain ⟨_, _, hs, h⟩ := h.of_bind
  cases hs
  cases he : (a.table k).get? name with
  | none =>
    rw [he] at h
    rw [lookup] at h
    obtain ⟨rfl, h⟩ := gives_pure.1 h
    cases h
    exact .inl ⟨rfl, rfl, rfl⟩
  | some e =>
    rw [he] at h
    refine .inr ?_
    dsimp only at h
    split at h
    · obtain ⟨rfl, h⟩ := gives_pure.1 h
      cases h
      exact ⟨e, _, rfl, rfl, rfl, .inl rfl⟩
    · obtain ⟨x, ⟨a1, rs1⟩, hread, h⟩ := h.of_bind
      obtain ⟨rfl, h⟩ := gives_pure.1 h
      cases h
      exact ⟨e, _, rfl, rfl, rfl, readEntry_gives hread⟩
    · obtain ⟨x, ⟨a1, rs1⟩, hread, h⟩ := h.of_bind
      rw [lookup, pure_bind] at h
      obtain ⟨rfl, h⟩ := gives_pure.1 h
      cases h
      exact ⟨e, _, rfl, rfl, rfl, readEntry_gives hread⟩

/-- A variable is kept only if it has a lower rank. -/
theorem mayReplace_gives {old : Option Binding} {r : Bool}
    (h : Gives (mayReplace name old origin false) s r s') :
    s'.1 = s.1 ∧ (r = false → ∃ v, old = some v ∧ v.origin.rank < origin.rank) := by
  unfold mayReplace at h
  split at h
  · rename_i v
    split at h
    · rename_i hrank
      obtain ⟨_, hremark, rfl⟩ := h.of_pure
      exact ⟨(keeps_remark _).of_gives hremark, fun _ => ⟨v, rfl, by simpa using hrank⟩⟩
    · cases h
      exact ⟨rfl, nofun⟩
  · cases h
    exact ⟨rfl, nofun⟩

theorem agreeOff_of_read (he : (a.table k).get? name = some e)
    (h : b = a ∨ b = a.put k { e with isRead := true }) :
    Scopes.AgreeOff k name a b ∧ ∃ e', (b.table k).get? name = some e' ∧ e'.origin = e.origin := by
  rcases h with rfl | rfl
  · exact ⟨fun _ _ _ => rfl, e, he, rfl⟩
  · have hname := Table.name_of_get? he
    refine ⟨hname ▸ agreeOff_put a k { e with isRead := true }, { e with isRead := true }, ?_, rfl⟩
    rw [get?_put, if_pos ⟨rfl, hname.symm⟩]

/-- **Setting a variable changes that variable only, and sets it** unless one of a lower rank is
kept. -/
theorem set_gives {flavor : Flavor} {u : Unit}
    (h : Gives (set k [] name flavor origin value false) (a, rs) u (b, rs')) :
    Scopes.AgreeOff k name a b ∧
      ((b.table k).get? name = some ⟨name, flavor, origin, value, false⟩ ∨
        ∃ e, (a.table k).get? name = some e ∧ e.origin.rank < origin.rank ∧
          ∃ e', (b.table k).get? name = some e' ∧ e'.origin = e.origin) := by
  unfold set at h
  extract_lets rest at h
  split at h
  · cases h
  · obtain ⟨old, ⟨a1, rs1⟩, hold, h⟩ := h.of_bind
    obtain ⟨r, ⟨a2, rs2⟩, hmay, h⟩ := h.of_bind
    obtain ⟨hsame, hkept⟩ := mayReplace_gives hmay
    cases hsame
    have hagree : Scopes.AgreeOff k name a a1 := by
      obtain ⟨-, -, rfl⟩ | ⟨e, -, he, -, -, hread⟩ := lookup_gives hold
      · exact fun _ _ _ => rfl
      · exact (agreeOff_of_read he hread).1
    split at h
    · cases gives_update.1 h
      refine ⟨fun k' n hn => ?_, .inl ?_⟩
      · exact (agreeOff_put a1 k ⟨name, flavor, origin, value, false⟩ k' n hn).trans
          (hagree k' n hn)
      · rw [get?_put, if_pos ⟨rfl, rfl⟩]
    · rename_i hr
      obtain ⟨-, h⟩ := gives_pure.1 h
      cases h
      obtain ⟨v, hv, hrank⟩ := hkept (by simpa using hr)
      obtain ⟨hnone, -⟩ | ⟨e, w, he, hw, horigin, hread⟩ := lookup_gives hold
      · simp [hv] at hnone
      · rw [hv] at hw
        cases hw
        exact ⟨hagree, .inr ⟨e, he, horigin ▸ hrank, (agreeOff_of_read he hread).2⟩⟩

/-! ## Looking changes no value -/

/-- The tables have the same values. -/
def Alike (s s' : Scopes × List Remark) : Prop := s.1.SameValues s'.1

instance : IsPreorder (Scopes × List Remark) Alike where
  refl s := sameValues_refl s.1
  trans _ _ _ := Scopes.SameValues.trans

theorem alike_of_sameScopes (h : SameScopes s s') : Alike s s' := by
  rw [Alike, show s'.1 = s.1 from h]
  exact sameValues_refl s.1

/-- Reading a variable of a table changes no value. -/
theorem alike_readEntry (he : (s.1.table k).get? name = some e) :
    Alike s ((readEntry k e).run s).2 := by
  unfold readEntry
  split
  · exact keeps_ofExcept _ s
  · refine keeps_bind_gives (alike_of_sameScopes (keeps_readText _ _ s)) fun x s1 hread => ?_
    refine keeps_bind_at ?_ fun _ => keeps_pure x
    refine sameValues_put (n := name) ?_
    rw [show s1.1 = s.1 from (keeps_readText _ _).of_gives hread]
    exact he

theorem keeps_lookup (chain : List ScopeName) (name : Text) : Keeps Alike (lookup chain name) := by
  induction chain with
  | nil => exact keeps_pure _
  | cons k rest ih =>
    intro s
    refine keeps_bind_gives (refl_of Alike s) fun a s1 hs => ?_
    cases hs
    cases he : (s.1.table k).get? name with
    | none => exact ih s
    | some e =>
      dsimp only
      split
      · exact keeps_pure _ s
      · exact keeps_bind_at (alike_readEntry he) fun x => keeps_pure _
      · refine keeps_bind_at (alike_readEntry he) fun added => keeps_bind ih fun outer => ?_
        split
        · exact keeps_pure _
        · split <;> exact keeps_pure _

theorem keeps_mayReplace (name : Text) (old : Option Binding) (origin : Origin) (force : Bool) :
    Keeps Alike (mayReplace name old origin force) := by
  unfold mayReplace
  split
  · split
    · exact keeps_return (fun s => alike_of_sameScopes (keeps_remark _ s))
    · exact keeps_pure _
  · exact keeps_pure _

/-- The tables have the same values for a name. -/
def AlikeAt (n : Text) (s s' : Scopes × List Remark) : Prop := s.1.SameAt n s'.1

instance (n : Text) : IsPreorder (Scopes × List Remark) (AlikeAt n) where
  refl _ _ := rfl
  trans _ _ _ := Scopes.SameAt.trans

theorem Alike.at (h : Alike s s') (n : Text) : AlikeAt n s s' := Scopes.SameValues.sameAt h n

/-- Setting a variable keeps those of other names. -/
theorem keeps_set (hn : name ≠ n) (k : ScopeName) (outer : List ScopeName) (flavor : Flavor)
    (origin : Origin) (value : Text) (force : Bool) :
    Keeps (AlikeAt n) (set k outer name flavor origin value force) := by
  refine keeps_when (keeps_throw _) fun _ => ?_
  refine keeps_bind (fun s => (keeps_lookup _ _ s).at n) fun old => ?_
  refine keeps_bind (fun s => (keeps_mayReplace _ _ _ _ s).at n) fun yes => ?_
  split
  · exact keeps_modify fun s => sameAt_put s.1 k hn
  · exact keeps_pure _

theorem keeps_merge (k : ScopeName) (outer : List ScopeName) (ht : t.get? n = none) :
    Keeps (AlikeAt n) (merge k outer t) := by
  induction t with
  | nil => exact keeps_pure _
  | cons e t ih =>
    have hnone : ∀ x ∈ e :: t, ¬ (x.name == n) = true := find?_eq_none.1 ht
    have hne : e.name ≠ n := by simpa using hnone e mem_cons_self
    refine keeps_bind (keeps_set hne _ _ _ _ _ _) fun _ => ih ?_
    exact find?_eq_none.2 fun x hx => hnone x (mem_cons_of_mem _ hx)

/-! ## Values -/

theorem lookup_recursive
    (he : (a.table k).get? name = some ⟨name, .recursive, origin, value, isRead⟩)
    (hx : Expansion.parseText value (place name) = pure x) (outer : List ScopeName)
    (rs : List Remark) :
    ∃ b, Scopes.SameValues a b ∧
      Gives (lookup (k :: outer) name) (a, rs) (some ⟨.recursive, origin, x⟩) (b, rs) := by
  have hread : ∃ b, Scopes.SameValues a b ∧
      Gives (readEntry k ⟨name, .recursive, origin, value, isRead⟩) (a, rs) x (b, rs) := by
    unfold readEntry
    cases isRead with
    | true =>
      refine ⟨a, sameValues_refl a, ?_⟩
      rw [hx]
      rfl
    | false =>
      refine ⟨_, sameValues_put he, ?_⟩
      unfold readText
      rw [hx]
      rfl
  obtain ⟨b, hsame, hread⟩ := hread
  refine ⟨b, hsame, ?_⟩
  rw [lookup, gives_bind]
  refine ⟨a, (a, rs), gives_scopes.2 ⟨rfl, rfl⟩, ?_⟩
  rw [he]
  exact gives_bind.2 ⟨x, _, hread, rfl⟩

theorem lookup_recursive_gives
    (he : (s.1.table k).get? name = some ⟨name, .recursive, origin, value, isRead⟩)
    (h : Gives (lookup (k :: outer) name) s r s') :
    ∃ x, r = some ⟨.recursive, origin, x⟩ ∧
      (Expansion.parseText value (place name)).outcome.1 = .ok x := by
  rw [lookup] at h
  obtain ⟨_, s1, hscopes, h⟩ := h.of_bind
  cases hscopes
  rw [he] at h
  obtain ⟨x, hread, rfl⟩ := h.of_pure
  exact ⟨x, rfl, readEntry_value hread⟩

/-- A simple variable stands for its text. -/
theorem lookup_simple (he : (a.table k).get? name = some ⟨name, .simple, origin, value, isRead⟩)
    (outer : List ScopeName) (rs : List Remark) :
    ∃ l, Gives (lookup (k :: outer) name) (a, rs) (some ⟨.simple, origin, .literal value l⟩)
      (a, rs) := by
  refine ⟨some ⟨"Expansion of variable '" ++ name ++ ['\x27'], 1, 0⟩, ?_⟩
  rw [lookup, gives_bind]
  refine ⟨a, (a, rs), gives_scopes.2 ⟨rfl, rfl⟩, ?_⟩
  rw [he]
  exact rfl

theorem lookup_append {inner : List ScopeName} (h : ∀ k ∈ inner, (a.table k).get? name = none)
    (rs : List Remark) :
    (lookup (inner ++ outer) name).run (a, rs) = (lookup outer name).run (a, rs) := by
  induction inner with
  | nil => rfl
  | cons k inner ih =>
    rw [cons_append, lookup, run_bind, show scopes.run (a, rs) = (.ok a, (a, rs)) from rfl]
    dsimp only
    rw [h k mem_cons_self]
    exact ih fun k hk => h k (mem_cons_of_mem _ hk)

end ScopeM

end Rebuild
