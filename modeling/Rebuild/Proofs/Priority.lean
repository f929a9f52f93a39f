import Rebuild.Proofs.Variable
/-!
# Who may change a variable

A table of variables without outer tables is changed by calls that set a variable or append to it. A
call of a higher rank number than the variable has is ignored, and the rank of a variable never goes
up (`Call.rank_after`): what was written with an origin is safe from all calls of a higher rank.

Setting a variable writes the origin of the call, and so does appending to one that is not there.
Appending to a variable that is there keeps its origin, also if the call has a lower rank: then the
variable is as safe as it was before, and no safer (`Call.priority`, `Call.append_not_safe`).
-/

namespace Rebuild

open Scopes

theorem Origin.ofRank?_rank (o : Origin) : ofRank? o.rank = some o := by
  cases o <;> rfl

variable {o : Origin} {e : Entry} {chain : List ScopeName}

theorem Origin.rank_injective {o' : Origin} (h : o.rank = o'.rank) : o = o' :=
  Option.some.inj ((ofRank?_rank o).symm.trans (h ▸ ofRank?_rank o'))

/-- A variable of a table, whether it was read or not. -/
def Scopes.held (s : Scopes) (k : ScopeName) (n : Text) : Option Entry :=
  ((s.table k).get? n).map ({ · with isRead := false })

namespace Scopes

variable {a b : Scopes} {k : ScopeName} {n : Text} {s : Scopes}

theorem SameAt.held (h : SameAt n a b) (k : ScopeName) : b.held k n = a.held k n := h k

theorem held_put (s : Scopes) (k k' : ScopeName) (e : Entry) (n : Text) :
    (s.put k e).held k' n = if k' = k ∧ n = e.name then some
      { e with isRead := false } else s.held k' n := by
  unfold held
  rw [get?_put]
  split <;> rfl

theorem name_of_held (h : s.held k n = some e) : e.name = n := by
  obtain ⟨e', he', rfl⟩ := Option.map_eq_some_iff.1 h
  exact show e'.name = n from Table.name_of_get? he'

theorem held_eq_some (he : (s.table k).get? n = some e) :
    s.held k n = some { e with isRead := false } := by
  rw [held, he, Option.map_some]

/-- Flavour, origin and text of a variable do not depend on what was read. -/
theorem raw?_congr (h : ∀ k ∈ chain, b.held k n = a.held k n) :
    b.raw? chain n = a.raw? chain n := by
  induction chain with
  | nil => rfl
  | cons k rest ih =>
    have hk := h k List.mem_cons_self
    unfold raw?
    rw [ih fun k hk => h k (List.mem_cons_of_mem _ hk)]
    unfold held at hk
    cases he : (a.table k).get? n with
    | none =>
      rw [he, Option.map_none, Option.map_eq_none_iff] at hk
      rw [hk]
    | some e =>
      rw [he, Option.map_some, Option.map_eq_some_iff] at hk
      obtain ⟨e', he', heq⟩ := hk
      rw [he']
      cases e
      cases e'
      cases heq
      rfl

/-- A variable that does not continue another table has the origin of its entry. -/
theorem origin_raw? (s : Scopes) (k : ScopeName) (n : Text) :
    ((s.raw? [k] n).map fun x => x.2.1) = (s.held k n).map (·.origin) := by
  unfold held raw?
  cases (s.table k).get? n with
  | none => rfl
  | some e =>
    dsimp only [raw?]
    split <;> rfl

/-- The values that a chain of tables has for a name can be read. -/
def Readable (s : Scopes) (chain : List ScopeName) (n : Text) : Prop :=
  ∀ k ∈ chain, ∀ e ∈ s.held k n, e.flavor = .simple ∨
    (Expansion.parseText e.value (ScopeM.place n)).outcome.1.isOk = true

instance (s : Scopes) (chain : List ScopeName) (n : Text) : Decidable (s.Readable chain n) :=
  inferInstanceAs (Decidable (∀ k ∈ chain, _))

theorem SameAt.readable (h : SameAt n a b) (ha : a.Readable chain n) :
    b.Readable chain n := fun k hk e he => ha k hk e (h.held k ▸ he)

end Scopes

namespace ScopeM

variable {k : ScopeName} {name : Text} {s s' : Scopes × List Remark} {r old : Option Binding}
  {err : Error}

theorem lookup_raw (h : Gives (lookup chain name) s r s') :
    (r.map fun v => (v.flavor, v.origin)) = (s.1.raw? chain name).map fun x => (x.1, x.2.1) := by
  induction chain generalizing s r s' with
  | nil =>
    cases h
    rfl
  | cons k rest ih =>
    obtain ⟨_, s1, hscopes, h⟩ := h.of_bind
    cases hscopes
    unfold raw?
    cases he : (s.1.table k).get? name with
    | none =>
      rw [he] at h
      exact ih h
    | some e =>
      rw [he] at h
      dsimp only at h ⊢
      split at h
      · rename_i hflavor
        cases h
        simp [hflavor]
      · rename_i hflavor
        obtain ⟨x, -, rfl⟩ := h.of_pure
        simp [hflavor]
      · rename_i hflavor
        obtain ⟨added, s1, hread, h⟩ := h.of_bind
        obtain ⟨found, s2, hfound, h⟩ := h.of_bind
        have hsame : Alike s s1 := by
          have hread' := alike_readEntry he
          rwa [show (readEntry k e).run s = _ from hread] at hread'
        have hrest := ih hfound
        rw [raw?_congr fun k _ => (hsame.at name).held k] at hrest
        rw [if_pos (by simp [hflavor])]
        cases found with
        | none =>
          rw [Option.map_none, eq_comm, Option.map_eq_none_iff] at hrest
          cases h
          rw [hrest]
          rfl
        | some outer =>
          rw [Option.map_some, eq_comm, Option.map_eq_some_iff] at hrest
          obtain ⟨⟨f, o, v⟩, hraw, hfo⟩ := hrest
          cases hfo
          rw [hraw]
          dsimp only at h ⊢
          split at h <;> rename_i hrank <;> cases h
          · rw [if_pos hrank]
            rfl
          · rw [if_neg hrank]
            rfl

@[simp] theorem fails_scopes : ¬ Fails scopes s err s' := by
  intro h
  cases h

theorem remarks_not_fails (notices : List Notice) :
    ¬ Fails (notices.forM fun n => remark (.reading n)) s err s' := by
  induction notices generalizing s with
  | nil => exact fails_pure
  | cons n notices ih =>
    intro h
    obtain h | ⟨_, s1, -, h⟩ := fails_bind.1 h
    · exact fails_modify h
    · exact ih h

theorem readText_fails {value : Text} (h : Fails (readText name value) s err s') :
    (Expansion.parseText value (place name)).outcome.1 = .error err := by
  unfold readText at h
  generalize (Expansion.parseText value (place name)).outcome = p at h ⊢
  obtain ⟨outcome, notices⟩ := p
  obtain h | ⟨_, s1, -, h⟩ := fails_bind.1 h
  · exact absurd h (remarks_not_fails notices)
  · exact (fails_ofExcept.1 h).1

theorem readEntry_fails (h : Fails (readEntry k e) s err s') :
    (Expansion.parseText e.value (place e.name)).outcome.1 = .error err := by
  unfold readEntry at h
  split at h
  · exact (fails_ofExcept.1 h).1
  · obtain h | ⟨x, s1, -, h⟩ := fails_bind.1 h
    · exact readText_fails h
    · exact absurd h.of_pure fails_modify

/-- A name whose values can be read is looked up without failure. -/
theorem lookup_not_fails (hread : s.1.Readable chain name) :
    ¬ Fails (lookup chain name) s err s' := by
  induction chain generalizing s with
  | nil => exact fails_pure
  | cons k rest ih =>
    intro h
    have hrest : s.1.Readable rest name := fun k' hk' => hread k' (List.mem_cons_of_mem _ hk')
    obtain h | ⟨_, s1, hscopes, h⟩ := fails_bind.1 h
    · exact fails_scopes h
    cases hscopes
    cases he : (s.1.table k).get? name with
    | none =>
      rw [he] at h
      exact ih hrest h
    | some e =>
      have hentry : e.flavor ≠ .simple → ∀ err s', ¬ Fails (readEntry k e) s err s' := by
        intro hsimple err s' hfails
        obtain hflavor | hok := hread k List.mem_cons_self _ (held_eq_some he)
        · exact hsimple hflavor
        · rw [← Table.name_of_get? he, readEntry_fails hfails] at hok
          cases hok
      rw [he] at h
      dsimp only at h
      split at h
      · exact fails_pure h
      · rename_i hflavor
        exact hentry (by simp [hflavor]) _ _ h.of_pure
      · rename_i hflavor
        obtain h | ⟨x, s1, hx, h⟩ := fails_bind.1 h
        · exact hentry (by simp [hflavor]) _ _ h
        have hsame : Alike s s1 := by
          have hread' := alike_readEntry he
          rwa [show (readEntry k e).run s = _ from hx] at hread'
        obtain h | ⟨found, s2, -, h⟩ := fails_bind.1 h
        · exact ih ((hsame.at name).readable hrest) h
        · split at h
          · exact fails_pure h
          · split at h <;> exact fails_pure h

/-- A variable is replaced only if it has no lower rank. -/
theorem mayReplace_true {origin : Origin} (h : Gives (mayReplace name old origin false) s true s') :
    ∀ v ∈ old, origin.rank ≤ v.origin.rank := by
  rintro v rfl
  unfold mayReplace at h
  dsimp only at h
  split at h
  · obtain ⟨_, s1, -, h⟩ := h.of_bind
    cases h
  · rename_i hrank
    simpa using hrank

theorem mayReplace_not_fails {origin : Origin} {force : Bool} :
    ¬ Fails (mayReplace name old origin force) s err s' := by
  intro h
  unfold mayReplace at h
  split at h
  · split at h
    · exact fails_modify h.of_pure
    · exact fails_pure h
  · exact fails_pure h

section Set

variable {outer : List ScopeName} {flavor : Flavor} {origin : Origin} {value : Text}

theorem lookup_origin (h : Gives (lookup chain name) s r s') :
    (r.map (·.origin)) = (s.1.raw? chain name).map (·.2.1) := by
  have hraw := congrArg (Option.map Prod.snd) (lookup_raw h)
  rwa [Option.map_map, Option.map_map] at hraw

/-- **A variable is set unless the tables have one of a lower rank**, and nothing else changes. -/
theorem set_gives_cases {u : Unit} (h : Gives (set k outer name flavor origin value false) s u s') :
    (Alike s s' ∧ ∃ old ∈ s.1.raw? (k :: outer) name, old.2.1.rank < origin.rank) ∨
      flavor ≠ .append ∧ (∀ old ∈ s.1.raw? (k :: outer) name, origin.rank ≤ old.2.1.rank) ∧
        ∃ a, s.1.SameValues a ∧ s'.1 = a.put k ⟨name, flavor, origin, value, false⟩ := by
  unfold set at h
  extract_lets rest at h
  split at h
  · cases h
  rename_i hflavor
  obtain ⟨old, s1, hold, h⟩ := h.of_bind
  obtain ⟨yes, s2, hmay, h⟩ := h.of_bind
  have horigin := lookup_origin hold
  have hsame : Alike s s2 :=
    trans_of Alike ((keeps_lookup _ _).of_gives hold) ((keeps_mayReplace _ _ _ _).of_gives hmay)
  cases yes with
  | true =>
    refine .inr ⟨by simpa using hflavor, fun x hx => ?_, s2.1, hsame, ?_⟩
    · rw [show s.1.raw? (k :: outer) name = some x from hx, Option.map_some] at horigin
      obtain ⟨v, hv, hvx⟩ := Option.map_eq_some_iff.1 horigin
      exact hvx ▸ mayReplace_true hmay v hv
    · rw [if_pos rfl] at h
      rw [← gives_update.1 h]
  | false =>
    cases h
    obtain ⟨v, rfl, hrank⟩ := (mayReplace_gives hmay).2 rfl
    obtain ⟨x, hx, hvx⟩ := Option.map_eq_some_iff.1 horigin.symm
    exact .inl ⟨hsame, x, hx, hvx ▸ hrank⟩

/-- Setting a variable fails only if it would append, or if what is there cannot be read. -/
theorem set_fails (h : Fails (set k outer name flavor origin value false) s err s') :
    Alike s s' ∧
    (flavor = .append ∧ err = .breach .assertion ∨ ¬ s.1.Readable (k :: outer) name) := by
  unfold set at h
  extract_lets rest at h
  split at h
  · rename_i hflavor
    obtain h | ⟨_, _, hthrow, -⟩ := fails_bind.1 h
    · obtain ⟨rfl, rfl⟩ := fails_throw.1 h
      exact ⟨refl_of Alike s, .inl ⟨by simpa using hflavor, rfl⟩⟩
    · cases hthrow
  · obtain h | ⟨old, s1, -, h⟩ := fails_bind.1 h
    · exact ⟨(keeps_lookup _ _).of_fails h, .inr fun hread => lookup_not_fails hread h⟩
    · obtain h | ⟨yes, s2, -, h⟩ := fails_bind.1 h
      · exact absurd h mayReplace_not_fails
      · split at h
        · exact absurd h fails_modify
        · cases h

end Set

section Append

variable {origin : Origin} {value : Text}

/-- **What an append does:** nothing if the variable has a lower rank, and else it makes the
variable or adds to its text. The text to add to a simple variable is handed out for evaluation
first. -/
theorem append_gives {r : Append} (h : Gives (append k name origin value) s r s') :
    (r = .done ∧ s' = s ∧ ∃ e ∈ s.1.held k name, e.origin.rank < origin.rank) ∨
    (r = .done ∧ s.1.held k name = none ∧ s'.1 = s.1.put k ⟨name, .append, origin, value, false⟩) ∨
    ∃ e, (s.1.table k).get? name = some e ∧ origin.rank ≤ e.origin.rank ∧
      (e.flavor = .simple ∧ (∃ x, r = .evaluate e x ∧
          (Expansion.parseText value (place name)).outcome.1 = .ok x) ∧ s'.1 = s.1 ∨
        e.flavor ≠ .simple ∧ r = .done ∧
          s'.1 = s.1.put k { e with value := e.value ++ [' '] ++ value, isRead := false }) := by
  unfold append at h
  extract_lets rest at h
  split at h
  · cases h
  obtain ⟨_, s1, hscopes, h⟩ := h.of_bind
  cases hscopes
  cases he : (s.1.table k).get? name with
  | none =>
    rw [he] at h
    obtain ⟨_, hput, rfl⟩ := h.of_pure
    refine .inr (.inl ⟨rfl, ?_, ?_⟩)
    · rw [held, he, Option.map_none]
    · rw [← gives_update.1 hput]
  | some e =>
    rw [he] at h
    dsimp only at h
    split at h
    · rename_i hrank
      cases h
      exact .inl ⟨rfl, rfl, _, held_eq_some he, hrank⟩
    · rename_i hrank
      refine .inr (.inr ⟨e, rfl, Nat.le_of_not_lt hrank, ?_⟩)
      split at h
      · rename_i hflavor
        obtain ⟨x, hread, rfl⟩ := h.of_pure
        exact .inl ⟨by simpa using hflavor, ⟨x, rfl, readText_value hread⟩,
          (keeps_readText _ _).of_gives hread⟩
      · rename_i hflavor
        obtain ⟨_, hput, rfl⟩ := h.of_pure
        refine .inr ⟨by simpa using hflavor, rfl, ?_⟩
        rw [← gives_update.1 hput]

theorem append_fails (h : Fails (append k name origin value) s err s') : s'.1 = s.1 := by
  unfold append at h
  extract_lets rest at h
  split at h
  · obtain h | ⟨_, _, hthrow, -⟩ := fails_bind.1 h
    · rw [(fails_throw.1 h).2]
    · cases hthrow
  obtain h | ⟨_, s1, hscopes, h⟩ := fails_bind.1 h
  · exact absurd h fails_scopes
  cases hscopes
  split at h
  · exact absurd h.of_pure fails_modify
  · split at h
    · cases h
    · split at h
      · exact (keeps_readText _ _).of_fails h.of_pure
      · exact absurd h.of_pure fails_modify

end Append

end ScopeM

/-- A call that changes a variable. -/
inductive Call where
  | set (name : Text) (flavor : Flavor) (origin : Origin) (value : Text)
  /-- Append a text; `result` is what its evaluation gives, which is asked for if the variable is
  simple. -/
  | append (name : Text) (origin : Origin) (value result : Text)
deriving DecidableEq, Repr

namespace Call

/-- The variable that the call is about. -/
def name : Call → Text
  | .set n _ _ _ => n
  | .append n _ _ _ => n

/-- Who calls. -/
def origin : Call → Origin
  | .set _ _ o _ => o
  | .append _ o _ _ => o

/-- Carry out a call on a table that has no outer tables. -/
def run (k : ScopeName) : Call → ScopeM Unit
  | .set n f o v => ScopeM.set k [] n f o v false
  | .append n o v r => do
    match ← ScopeM.append k n o v with
    | .done => return
    | .evaluate old _ => ScopeM.appendValue k old r

/-- The tables after some calls; a call that fails is passed over. -/
def after (k : ScopeName) (cs : List Call) (s : Scopes × List Remark) : Scopes × List Remark :=
  cs.foldl (fun s c => ((c.run k).run s).2) s

/-- What a call writes in the place of a variable. -/
def written : Call → Option Entry → Entry
  | .set n f o v, _ => ⟨n, f, o, v, false⟩
  | .append n o v _, none => ⟨n, .append, o, v, false⟩
  | .append _ _ v r, some e =>
    { e with value := e.value ++ [' '] ++ (if e.flavor = .simple then r else v), isRead := false }

variable {k : ScopeName} {c d : Call} {s : Scopes × List Remark} {r : Nat} {n : Text}

/-- **One call** changes no value, or it writes its variable, which then had no lower rank. -/
theorem run_cases (k : ScopeName) (c : Call) (s : Scopes × List Remark) :
    ScopeM.Alike s ((c.run k).run s).2 ∨
      (∀ e ∈ s.1.held k c.name, c.origin.rank ≤ e.origin.rank) ∧
        ∃ a, s.1.SameValues a ∧
        ((c.run k).run s).2.1 = a.put k (c.written (s.1.held k c.name)) := by
  obtain ⟨⟨⟩, s', h⟩ | ⟨err, s', h⟩ := gives_or_fails (c.run k) s
  · rw [show (c.run k).run s = _ from h]
    cases c with
    | set n f o v =>
      obtain ⟨hsame, -⟩ | ⟨-, hrank, hput⟩ := ScopeM.set_gives_cases h
      · exact .inl hsame
      · refine .inr ⟨fun e he => ?_, hput⟩
        have horigin := s.1.origin_raw? k n
        rw [show s.1.held k n = some e from he] at horigin
        obtain ⟨old, hold, heq⟩ := Option.map_eq_some_iff.1 horigin
        exact (hrank old hold).trans_eq (congrArg Origin.rank heq)
    | append n o v r =>
      obtain ⟨x, s1, happend, hrest⟩ := h.of_bind
      obtain ⟨rfl, rfl, -⟩ | ⟨rfl, hnone, hput⟩ | ⟨e, he, hrank, hcase⟩ :=
        ScopeM.append_gives happend
      · cases (gives_pure.1 hrest).2
        exact .inl (refl_of ScopeM.Alike _)
      · cases (gives_pure.1 hrest).2
        rw [name, hnone]
        exact .inr ⟨nofun, s.1, sameValues_refl _, hput⟩
      · rw [name, held_eq_some he]
        refine .inr ⟨fun e' he' => ?_, s.1, sameValues_refl _, ?_⟩
        · cases he'
          exact hrank
        · obtain ⟨hsimple, ⟨y, rfl, -⟩, hs1⟩ | ⟨hsimple, rfl, hput⟩ := hcase
          · rw [← ScopeM.gives_update.1 hrest, hs1, written, if_pos hsimple]
          · cases (gives_pure.1 hrest).2
            rw [hput, written, if_neg hsimple]
  · rw [show (c.run k).run s = _ from h]
    refine .inl ?_
    cases c with
    | set n f o v => exact (ScopeM.set_fails h).1
    | append n o v r =>
      obtain h | ⟨x, s1, -, h⟩ := fails_bind.1 h
      · exact ScopeM.alike_of_sameScopes (ScopeM.append_fails h)
      · split at h
        · cases h
        · exact absurd h fails_modify

theorem name_written {old : Option Entry} (h : ∀ e ∈ old, e.name = c.name) :
    (c.written old).name = c.name := by
  cases c with
  | set n f o v => rfl
  | append n o v r =>
    cases old with
    | none => rfl
    | some e => exact h e rfl

theorem isRead_written (c : Call) (old : Option Entry) : (c.written old).isRead = false := by
  cases c with
  | set n f o v => rfl
  | append n o v r => cases old <;> rfl

/-- The origin of what a call writes is the call's, but for an append to a variable that is
there. -/
theorem origin_written (c : Call) (old : Option Entry) :
    (c.written old).origin = c.origin ∨
      ∃ n o v r e, c = .append n o v r ∧ old = some e ∧ (c.written old).origin = e.origin := by
  cases c with
  | set n f o v => exact .inl rfl
  | append n o v r =>
    cases old with
    | none => exact .inl rfl
    | some e => exact .inr ⟨n, o, v, r, e, rfl, rfl, rfl⟩

theorem held_run (k : ScopeName) (c : Call) (s : Scopes × List Remark) (n : Text) :
    ((c.run k).run s).2.1.held k n = s.1.held k n ∨
      n = c.name ∧ (∀ e ∈ s.1.held k n, c.origin.rank ≤ e.origin.rank) ∧
        ((c.run k).run s).2.1.held k n = some (c.written (s.1.held k n)) := by
  obtain hsame | ⟨hrank, a, hsame, hput⟩ := run_cases k c s
  · exact .inl ((hsame.at n).held k)
  · have hname : (c.written (s.1.held k c.name)).name = c.name :=
      name_written fun e he => name_of_held he
    rw [hput, held_put]
    split
    · rename_i hn
      obtain rfl : n = c.name := hn.2.trans hname
      refine .inr ⟨rfl, hrank, ?_⟩
      rw [← isRead_written c (s.1.held k c.name)]
    · exact .inl ((hsame.sameAt n).held k)

/-- A call does not raise the rank of a variable. -/
theorem rank_run (h : ∃ e ∈ s.1.held k n, e.origin.rank ≤ r) (c : Call) :
    ∃ e ∈ ((c.run k).run s).2.1.held k n, e.origin.rank ≤ r := by
  obtain ⟨e, he, hr⟩ := h
  obtain hsame | ⟨-, hrank, hwritten⟩ := held_run k c s n
  · exact ⟨e, hsame ▸ he, hr⟩
  · refine ⟨_, hwritten, ?_⟩
    obtain horigin | ⟨_, _, _, _, e', -, he', horigin⟩ := origin_written c (s.1.held k n)
    · rw [horigin]
      exact Nat.le_trans (hrank e he) hr
    · rw [horigin, Option.some.inj (he'.symm.trans he)]
      exact hr

/-- **No calls raise the rank of a variable.** -/
theorem rank_after (cs : List Call) (h : ∃ e ∈ s.1.held k n, e.origin.rank ≤ r) :
    ∃ e ∈ (after k cs s).1.held k n, e.origin.rank ≤ r := by
  induction cs generalizing s with
  | nil => exact h
  | cons c cs ih => exact ih (rank_run h c)

/-- A call of a higher rank than the variable has is ignored. -/
theorem held_of_rank (h : ∃ e ∈ s.1.held k n, e.origin.rank < d.origin.rank) :
    ((d.run k).run s).2.1.held k n = s.1.held k n := by
  obtain ⟨e, he, hlt⟩ := h
  obtain hsame | ⟨-, hrank, -⟩ := held_run k d s n
  · exact hsame
  · exact absurd (hrank e he) (Nat.not_le_of_lt hlt)

theorem after_concat (k : ScopeName) (cs : List Call) (d : Call) (s : Scopes × List Remark) :
    after k (cs ++ [d]) s = ((d.run k).run (after k cs s)).2 := by
  rw [after, List.foldl_append]
  rfl

/-- A call that sets a readable variable of no lower rank sets it. -/
theorem held_set {f : Flavor} {v : Text} (hf : f ≠ .append) (hread : s.1.Readable [k] n)
    (hrank : ∀ e ∈ s.1.held k n, o.rank ≤ e.origin.rank) :
    (((set n f o v).run k).run s).2.1.held k n = some ⟨n, f, o, v, false⟩ := by
  obtain ⟨⟨⟩, s', h⟩ | ⟨err, s', h⟩ := gives_or_fails ((set n f o v).run k) s
  · rw [show ((set n f o v).run k).run s = _ from h]
    obtain ⟨-, old, hold, hlt⟩ | ⟨-, -, a, -, hput⟩ := ScopeM.set_gives_cases h
    · have horigin := s.1.origin_raw? k n
      rw [show s.1.raw? [k] n = some old from hold] at horigin
      obtain ⟨e, he, heq⟩ := Option.map_eq_some_iff.1 horigin.symm
      exact absurd (hrank e he) (Nat.not_le_of_lt (congrArg Origin.rank heq ▸ hlt))
    · rw [hput, held_put, if_pos ⟨rfl, rfl⟩]
  · obtain ⟨-, ⟨happend, -⟩ | hnot⟩ := ScopeM.set_fails h
    · exact absurd happend hf
    · exact absurd hread hnot

/-- **A variable that a call has changed is safe from all later calls of a higher rank than it
has**, and only from those: a call that sets it with this rank or a lower one replaces it. It has
the rank of the call that changed it, unless that was an append to a variable of a higher rank,
which keeps its rank. -/
theorem priority (k : ScopeName) (s : Scopes × List Remark) (c : Call)
    (hchanged : (after k [c] s).1.held k c.name ≠ s.1.held k c.name) :
    ∃ e, (after k [c] s).1.held k c.name = some e ∧
      (e.origin = c.origin ∨ ∃ n o v r old, c = .append n o v r ∧ s.1.held k n = some old ∧
        o.rank < old.origin.rank ∧ e.origin = old.origin) ∧
      (∀ later d, d.name = c.name → e.origin.rank < d.origin.rank →
        (after k (c :: later ++ [d]) s).1.held k c.name =
        (after k (c :: later) s).1.held k c.name) ∧
      ∀ f o v, f ≠ .append → o.rank ≤ e.origin.rank → (after k [c] s).1.Readable [k] c.name →
        (after k [c, .set c.name f o v] s).1.held k c.name = some ⟨c.name, f, o, v, false⟩ := by
  obtain hsame | ⟨-, hrank, hwritten⟩ := held_run k c s c.name
  · exact absurd hsame hchanged
  refine ⟨_, hwritten, ?_, fun later d _ hlt => ?_, fun f o v hf hle hread => ?_⟩
  · obtain horigin | ⟨n, o, v, r, old, rfl, hold, horigin⟩ := origin_written c (s.1.held k c.name)
    · exact .inl horigin
    · rw [horigin]
      obtain hlt | heq := Nat.lt_or_eq_of_le (hrank old hold)
      · exact .inr ⟨n, o, v, r, old, rfl, hold, hlt, rfl⟩
      · exact .inl (Origin.rank_injective heq.symm)
  · rw [after_concat]
    refine held_of_rank ?_
    obtain ⟨e, he, hle⟩ := rank_after later ⟨_, hwritten, Nat.le_refl _⟩
    exact ⟨e, he, Nat.lt_of_le_of_lt hle hlt⟩
  · refine held_set hf hread fun e he => ?_
    rwa [← Option.some.inj (hwritten.symm.trans he)]

/-- A makefile variable, after an override has appended to it, is safe from the environment and from
nothing that a makefile says. -/
theorem priority_of_append :
    let s := after .global [.set ['X'] .recursive .makefile ['a']] ([], [])
    let c := append ['X'] .override ['b'] []
    (after .global [c] s).1.held .global c.name ≠ s.1.held .global c.name ∧
      (after .global [c, .set ['X'] .recursive .environment ['c']] s).1.held .global ['X'] =
        (after .global [c] s).1.held .global ['X'] ∧
      (after .global [c, .set ['X'] .simple .makefile ['d']] s).1.held .global ['X'] =
        some ⟨['X'], .simple, .makefile, ['d'], false⟩ := by
  intro s c
  have hchanged : (after .global [c] s).1.held .global c.name ≠ s.1.held .global c.name := by
    decide +kernel
  obtain ⟨e, he, -, hsafe, hset⟩ := priority .global s c hchanged
  have horigin : e.origin = .makefile := by
    have heval : ((after .global [c] s).1.held .global c.name).map (·.origin) = some .makefile := by
      decide +kernel
    rw [he] at heval
    exact Option.some.inj heval
  refine ⟨hchanged, ?_, ?_⟩
  · exact hsafe [] (.set ['X'] .recursive .environment ['c']) rfl (by rw [horigin]; decide)
  · exact hset .simple .makefile ['d'] (by decide) (horigin ▸ Nat.le_refl _) (by decide +kernel)

/-- What an override has appended is lost to a later assignment of the makefile: the call changed
the variable, and one of a higher rank changes it again. -/
theorem append_not_safe :
    let s := after .global [.set ['X'] .recursive .makefile ['a']] ([], [])
    let c := append ['X'] .override ['b'] []
    let d := set ['X'] .recursive .makefile ['c']
    (after .global [c] s).1.held .global c.name ≠ s.1.held .global c.name ∧
      d.name = c.name ∧ c.origin.rank < d.origin.rank ∧
      (after .global [c, d] s).1.held .global c.name ≠
      (after .global [c] s).1.held .global c.name := by
  decide +kernel

end Call

end Rebuild
