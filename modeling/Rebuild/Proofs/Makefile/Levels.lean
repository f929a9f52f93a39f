import Rebuild.Proofs.Makefile.Frame
import Mathlib.Data.Finset.Card
import Mathlib.Data.Finset.Dedup
/-!
# How deep evaluation goes

Evaluation goes one level down for the value of a variable, and the name of that variable is then
among those being evaluated, where it must not come up again. So it goes down at most as many
levels as there are names of variables that are not being evaluated, unless `eval` sets new ones.
What lies further down is never asked (`expansion_ends`): with that many levels evaluation has its
end, a text or an error, and more levels change nothing.

The comparison is between two ways to go one level down, `Agree` on the two computations: as long as
no variable has changed its value, they end alike and no variable changes its value.
-/

namespace Rebuild

open List

variable {k : ScopeName} {T a : Scopes} {name : Text}

variable {α : Type} {chain : List ScopeName} {e : Entry} {v : Binding}

/-! ## Expansions without `eval` -/

/-- The value of a variable has no call of `eval`: it is text, or what it reads as has none. -/
def Entry.evalFree (e : Entry) : Bool :=
  e.flavor == .simple ||
    match (Expansion.parseText e.value (ScopeM.place e.name)).outcome.1 with
    | .ok x => x.evalFree
    | .error _ => true

namespace Item

theorem evalFree_append (xs ys : List Item) :
    Item.evalFree (xs ++ ys) = (Item.evalFree xs && Item.evalFree ys) := by
  induction xs with
  | nil => rfl
  | cons x xs ih => cases x <;> simp [Item.evalFree, ih, Bool.and_assoc]

theorem evalFree_ofText (s : Text) : Item.evalFree (Item.ofText s) = true := by
  unfold ofText
  split <;> rfl

end Item

theorem Expansion.evalFree_items (e : Expansion) : Item.evalFree e.items = e.evalFree := by
  cases e with
  | literal s l => exact Item.evalFree_ofText s
  | sequence xs l => rfl

theorem ScopeM.evalFree_joined {outer added : Expansion} (ho : outer.evalFree = true)
    (ha : added.evalFree = true) : (joined outer added).evalFree = true := by
  have hitems : Item.evalFree (outer.items ++ [.text [' ']] ++ added.items) = true := by
    rw [Item.evalFree_append, Item.evalFree_append, Expansion.evalFree_items,
      Expansion.evalFree_items,
      ho, ha]
    rfl
  cases outer with
  | literal s l => exact hitems
  | sequence xs l => exact hitems

/-! ## The variables of a chain of tables -/

namespace Scopes

/-- The names of the variables in a chain of tables. -/
def names (T : Scopes) (chain : List ScopeName) : Finset Text :=
  (chain.flatMap fun k => (T.table k).map (·.name)).toFinset

/-- The names that are not among those being evaluated. -/
def unsettled (T : Scopes) (chain : List ScopeName) (setting : List Text) : Finset Text :=
  T.names chain \ setting.toFinset

/-- No variable in a chain of tables calls `eval`. -/
def EvalFree (T : Scopes) (chain : List ScopeName) : Prop :=
  ∀ k ∈ chain, ∀ e ∈ T.table k, e.evalFree = true

instance (T : Scopes) (chain : List ScopeName) : Decidable (T.EvalFree chain) :=
  inferInstanceAs (Decidable (∀ k ∈ chain, ∀ e ∈ T.table k, e.evalFree = true))

variable {n : Text}

theorem mem_names (hk : k ∈ chain) (he : (T.table k).get? n = some e) : n ∈ T.names chain := by
  rw [names, mem_toFinset, mem_flatMap]
  exact ⟨k, hk, mem_map.2 ⟨e, mem_of_find?_eq_some he, Table.name_of_get? he⟩⟩

/-- With a name more being evaluated there is one less left. -/
theorem card_unsettled_lt {setting : List Text} (hn : n ∈ T.names chain)
    (hset : n ∉ setting) :
    (T.unsettled chain (setting ++ [n])).card < (T.unsettled chain setting).card := by
  have hmem : n ∈ T.unsettled chain setting := by simp [unsettled, hn, hset]
  have heq : T.unsettled chain (setting ++ [n]) = (T.unsettled chain setting).erase n := by
    ext m
    simp only [unsettled, Finset.mem_sdiff, mem_toFinset, mem_append, mem_singleton,
      Finset.mem_erase]
    tauto
  rw [heq]
  exact Finset.card_erase_lt_of_mem hmem

theorem SameValues.symm {b : Scopes} (h : SameValues a b) : SameValues b a :=
  ⟨fun k => (h.names k).symm, fun k n => (h.values k n).symm⟩

/-- Which values call `eval` does not depend on which of them were read. -/
theorem EvalFree.entry (hT : T.EvalFree chain) (hsame : T.SameValues a)
    (hk : k ∈ chain) (he : (a.table k).get? n = some e) :
    n ∈ T.names chain ∧ e.evalFree = true := by
  obtain ⟨r, he'⟩ := (hsame.symm.sameAt n).exists_entry he
  exact ⟨mem_names hk he', hT k hk { e with isRead := r } (mem_of_find?_eq_some he')⟩

end Scopes

namespace ScopeM

variable {s s' : Scopes × List Remark}

theorem readEntry_evalFree {x : Expansion} (he : e.evalFree = true) (hflavor : e.flavor ≠ .simple)
    (h : Gives (readEntry k e) s x s') : x.evalFree = true := by
  have hsimple : (e.flavor == .simple) = false := by simpa using hflavor
  rwa [Entry.evalFree, hsimple, readEntry_value h, Bool.false_or] at he

/-- A name that is looked up in a part of a chain is one of the chain, and its value calls no
`eval`. -/
theorem lookup_evalFree {part : List ScopeName} (hT : T.EvalFree chain) (hpart : part ⊆ chain)
    (hs : T.SameValues s.1) (h : Gives (lookup part name) s (some v) s') :
    name ∈ T.names chain ∧ v.value.evalFree = true := by
  induction part generalizing s v s' with
  | nil => cases h
  | cons k rest ih =>
    have hrest : rest ⊆ chain := fun x hx => hpart (mem_cons_of_mem _ hx)
    obtain ⟨_, s1, hscopes, h⟩ := h.of_bind
    cases hscopes
    cases he : (s.1.table k).get? name with
    | none =>
      rw [he] at h
      exact ih hrest hs h
    | some e =>
      rw [he] at h
      obtain ⟨hname, hfree⟩ := hT.entry hs (hpart mem_cons_self) he
      refine ⟨hname, ?_⟩
      dsimp only at h
      split at h
      · obtain ⟨hv, -⟩ := gives_pure.1 h
        cases hv
        rfl
      · rename_i hflavor
        obtain ⟨x, hread, hv⟩ := h.of_pure
        cases hv
        exact readEntry_evalFree hfree (by simp [hflavor]) hread
      · rename_i hflavor
        obtain ⟨added, s1, hread, h⟩ := h.of_bind
        have hadded := readEntry_evalFree hfree (by simp [hflavor]) hread
        obtain ⟨found, s2, hfound, h⟩ := h.of_bind
        have hs1 : T.SameValues s1.1 := by
          have hread' := alike_readEntry he
          rw [show (readEntry k e).run s = _ from hread] at hread'
          exact hs.trans hread'
        cases found with
        | none =>
          obtain ⟨hv, -⟩ := gives_pure.1 h
          cases hv
          exact hadded
        | some outer =>
          obtain ⟨-, houter⟩ := ih hrest hs1 hfound
          dsimp only at h
          split at h
          · obtain ⟨hv, -⟩ := gives_pure.1 h
            cases hv
            exact houter
          · obtain ⟨hv, -⟩ := gives_pure.1 h
            cases hv
            exact evalFree_joined houter hadded

end ScopeM

/-! ## Computations that end alike -/

/-- The variables have these values. -/
abbrev Scopes.Hold (T : Scopes) (s : Session) : Prop := T.SameValues s.makefile.scopes

/-- As long as the variables have these values, two computations end alike, and the variables still
have these values. -/
def Agree (T : Scopes) (x y : MakeM α) : Prop :=
  ∀ s : Session, T.Hold s → x.run s = y.run s ∧ T.Hold (x.run s).2

instance (T : Scopes) : Congruence (fun _ => Agree T) T.Hold where
  congr_same hx := fun s hs => ⟨rfl, hs.trans (hx SameVariables s)⟩
  congr_bind {_ _ x _ _ _} hx hf := by
    intro s hs
    obtain ⟨heq, hs₁⟩ := hx s hs
    rw [run_bind, run_bind, ← heq]
    rcases hrun : x.run s with ⟨r, s₁⟩
    rw [hrun] at hs₁
    cases r with
    | error e => exact ⟨rfl, hs₁⟩
    | ok a => exact hf a ⟨s, s₁, hs, hrun⟩ s₁ hs₁

/-! ## One level -/

/-- A name stands for text, or it is one of the tables and its value calls no `eval`. -/
theorem Scope.lookup_evalFree {sc : Scope} (hT : T.EvalFree sc.outer)
    (h : Yields T.Hold (sc.lookup name) (some v)) :
    (∃ t l, v.value = .literal t l) ∨ name ∈ T.names sc.outer ∧ v.value.evalFree = true := by
  obtain ⟨s, s', hs, h⟩ := h
  unfold lookup at h
  split at h
  · obtain ⟨hv, -⟩ := gives_pure.1 h
    cases hv
    exact .inl ⟨_, _, rfl⟩
  · obtain ⟨rs, h⟩ := MakeM.onScopes_gives h
    exact .inr (ScopeM.lookup_evalFree hT (List.Subset.refl _) hs h)

/-- Whatever lies below, the value of a variable of the chain whose name is not being evaluated
comes out alike. -/
def Below.Agree (T : Scopes) (chain : List ScopeName) (setting : List Text) (b b' : Below) : Prop :=
  ∀ (sc : Scope) (name : Text) (e : Expansion), sc.outer = chain → name ∈ T.names chain →
    name ∉ setting → e.evalFree = true →
    Rebuild.Agree T (b.expand sc (setting ++ [name]) e) (b'.expand sc (setting ++ [name]) e)

theorem Evaluate.agree_expansion {setting : List Text} {b b' : Below} {sc : Scope}
    (hT : T.EvalFree sc.outer) (hb : b.Agree T sc.outer setting b') {e : Expansion}
    (he : e.evalFree = true) :
    Agree T (expansion b sc setting e) (expansion b' sc setting e) := by
  refine congr_expansion (P := fun _ => Agree T) (E := False) ?_ nofun rfl e (.inr he)
  intro sc1 sc' name v hsc hsc' hname hv
  unfold valueOf
  split
  · exact congr_pure (P := fun _ => Agree T) _
  · rcases Scope.lookup_evalFree (hsc ▸ hT) hv with ⟨t, l, hlit⟩ | ⟨hmem, hfree⟩
    · rename_i hnot
      exact absurd hlit (hnot t l)
    · exact hb sc' name v.value hsc' (hsc ▸ hmem) hname hfree

/-! ## All levels -/

namespace Below

/-- So many levels of evaluation and execution above what is given. -/
def above (b : Below) : Nat → Below
  | 0 => b
  | n + 1 =>
    { expand := fun sc setting e => Evaluate.expansion (b.above n) sc setting e
      execute := fun weak stmts => discard (Execute.statements (b.above n) weak .unset stmts) }

theorem above_bottom (n : Nat) : bottom.above n = levels n := by
  induction n with
  | zero => rfl
  | succ n ih => rw [above, ih, levels]

/-- With as many levels as there are names left, it does not matter what lies below. -/
theorem agree_above (hT : T.EvalFree chain) (b b' : Below) {n n' : Nat}
    {setting : List Text} (hn : (T.unsettled chain setting).card ≤ n)
    (hn' : (T.unsettled chain setting).card ≤ n') :
    (b.above n).Agree T chain setting (b'.above n') := by
  induction n generalizing n' setting with
  | zero =>
    intro sc name e _ hname hset _
    have hlt := Scopes.card_unsettled_lt hname hset
    omega
  | succ n ih =>
    rintro sc name e rfl hname hset he
    have hlt := Scopes.card_unsettled_lt hname hset
    obtain ⟨m, rfl⟩ : ∃ m, n' = m + 1 := ⟨n' - 1, by omega⟩
    exact Evaluate.agree_expansion hT (ih (by omega) (by omega)) he

end Below

/-- **Evaluation ends.** It goes down at most one level for each name of the tables that is not
being evaluated: with that many levels it has its end, a text or an error, whatever lies below
them. -/
theorem Evaluate.expansion_ends (s : Session) (sc : Scope) (setting : List Text) {e : Expansion}
    (he : e.evalFree = true) (hs : s.makefile.scopes.EvalFree sc.outer) :
    ∃ r : Except Error Text × Session,
      (∀ (b : Below) (n : Nat), (s.makefile.scopes.unsettled sc.outer setting).card ≤ n →
        (Evaluate.expansion (b.above n) sc setting e).run s = r) ∧
      ((s.makefile.scopes.unsettled sc.outer setting).card ≤ s.makefile.depth →
        (MakeM.expand sc setting e).run s = r) := by
  let N := (s.makefile.scopes.unsettled sc.outer setting).card
  have hsame := Scopes.sameValues_refl s.makefile.scopes
  have hall : ∀ (b : Below) (n : Nat), N ≤ n →
      (Evaluate.expansion (b.above n) sc setting e).run s =
        (Evaluate.expansion (Below.bottom.above N) sc setting e).run s := fun b n hn =>
    (agree_expansion hs (Below.agree_above hs b Below.bottom hn le_rfl) he s hsame).1
  refine ⟨_, hall, fun hdepth => ?_⟩
  rw [← hall Below.bottom s.makefile.depth hdepth, Below.above_bottom]
  rfl

/-- Two variables of a makefile that come back to each other, through a computed name, a
substitution and a call; one of them is appended to for a target. -/
def Sample.circle : Scopes :=
  [(.target "t", [⟨"A", .append, .makefile, "$(call B,$0)", false⟩]),
    (.global, [⟨"A", .recursive, .environment, "$($(C):x=y)", false⟩,
      ⟨"B", .recursive, .makefile, "$(foreach i,x y,$(i)$1 $(A))", false⟩,
      ⟨"C", .simple, .makefile, "B", false⟩])]

/-- A makefile with such variables. -/
def Sample.circular : Session where
  world := .fresh (.empty (.ofInt 1)) "/w" [] []
  makefile :=
    { Makefile.blank "/w" ⟨none, [], 0, none, [], [], 0, [], ⟨false, false, false⟩, 3⟩ with
    scopes := Sample.circle }

theorem Evaluate.expansion_ends_circle :
    (Sample.circle.unsettled [.target "t", .global] []).card = 3 ∧
    ∃ r : Except Error Text × Session,
      (∀ (b : Below) (n : Nat), 3 ≤ n → (Evaluate.expansion (b.above n) (.ofTarget "t") []
        (.sequence [.ref (.variable none (.literal "A" none))] none)).run Sample.circular = r) ∧
      r.1.toOption = none := by
  have hcard : (Sample.circle.unsettled [.target "t", .global] []).card = 3 := by decide +kernel
  have hfree : Sample.circle.EvalFree [.target "t", .global] := by decide +kernel
  obtain ⟨r, hall, -⟩ := Evaluate.expansion_ends Sample.circular (.ofTarget "t") []
    (e := .sequence [.ref (.variable none (.literal "A" none))] none) rfl hfree
  refine ⟨hcard, r, fun b n hn => hall b n (hcard.trans_le hn), ?_⟩
  rw [← hall Below.bottom 3 hcard.le]
  decide +kernel

end Rebuild
