import Rebuild.Proofs.Expansion.Passage
/-!
# How references are spelled

A reference that was read stands between parentheses in which the reader passed over each of its
parts (`Reference.SpelledIn`): it met no mark there that would have ended the part before, the name
of a variable was not taken for a call, and a call has as many arguments as its function takes. The
invariant of the reader says this of the references that are complete, and of the open ones as far
as they go (`Reader.Spells`); so it holds of all references of an expansion that was read, at every
depth (`parse_spelled`).
-/

namespace Rebuild

open List Token

variable {xs : List Item} {args : List Expansion} {e : Expansion} {b : Brace} {gs hs : List Glyph}
  {fn : Builtin} {k : Nat} {c : Char} {z z' w : Text} {loc : Location} {ns ns' : List Notice}

/-! ## References at every depth -/

mutual

/-- The references in the expansion, at every depth. -/
def Expansion.within : Expansion → List Reference
  | .literal _ _ => []
  | .sequence xs _ => withinItems xs

/-- The references among the items and in them. -/
def withinItems : List Item → List Reference
  | [] => []
  | .text _ :: rest => withinItems rest
  | .ref r :: rest => r.within ++ withinItems rest

/-- The reference and the references in it. -/
def Reference.within : Reference → List Reference
  | .variable l n => .variable l n :: n.within
  | .substitution l n p s => .substitution l n p s :: (n.within ++ (p.within ++ s.within))
  | .call l fn args => .call l fn args :: withinArgs args

/-- The references in the arguments. -/
def withinArgs : List Expansion → List Reference
  | [] => []
  | e :: rest => e.within ++ withinArgs rest

end

variable {r : Reference}

theorem mem_withinItems : r ∈ withinItems xs ↔ ∃ r', .ref r' ∈ xs ∧ r ∈ r'.within := by
  induction xs with
  | nil => simp [withinItems]
  | cons i xs ih => cases i <;> simp [withinItems, ih, or_and_right, exists_or]

theorem mem_withinArgs : r ∈ withinArgs args ↔ ∃ e ∈ args, r ∈ e.within := by
  induction args with
  | nil => simp [withinArgs]
  | cons e args ih => simp [withinArgs, ih]

theorem Expansion.mem_within : r ∈ e.within ↔ ∃ r', .ref r' ∈ e.glyphs ∧ r ∈ r'.within := by
  cases e with
  | literal s l => simp [within, glyphs, items, Item.glyphs_ofText]
  | sequence xs l =>
    rw [within, mem_withinItems]
    simp only [glyphs, items, Item.ref_mem_glyphs]

/-! ## The parts of a reference -/

namespace Glyph

/-- Between parentheses `b`, the glyphs are read as the name of a variable. -/
inductive IsName (b : Brace) : List Glyph → Prop
  | whole {gs : List Glyph} (free : callAfter? (skeleton gs) = none)
      (passes : Passes b [[':']] [] 0 gs 0) :
      IsName b gs
  /-- There is a colon as in a substitution, but no equals sign after it. -/
  | divided {x y : List Glyph} (free : callAfter? (skeleton x) = none)
      (left : Passes b [[':']] [':'] 0 x 0)
      (colon : match? (':' :: skeleton y) = some (.mark [':']))
      (right : Passes b [['=']] [] 0 y 0) :
      IsName b (x ++ .char ':' :: y)

/-- Between parentheses `b`, the glyphs are read as name, pattern and replacement, with a colon and
an equals sign between them. -/
structure IsSubstitution (b : Brace) (x y w : List Glyph) : Prop where
  free : callAfter? (skeleton x) = none
  name : Passes b [[':']] [':'] 0 x 0
  colon : match? (':' :: (skeleton y ++ ['='])) = some (.mark [':'])
  pattern : Passes b [['=']] ['='] 0 y 0
  replacement : Passes b [] [] 0 w 0

/-- Between parentheses `b`, the arguments are read one by one, after `k` others. -/
def ArgsPass (b : Brace) (fn : Builtin) : Nat → List Expansion → Prop
  | _, [] => True
  | k, e :: rest => Passes b (fn.marks k) [] 0 e.glyphs 0 ∧ ArgsPass b fn (k + 1) rest

theorem argsPass_append {as : List Expansion} :
    ArgsPass b fn k (args ++ as) ↔ ArgsPass b fn k args ∧ ArgsPass b fn (k + args.length) as := by
  induction args generalizing k with
  | nil => simp [ArgsPass]
  | cons e args ih =>
    rw [cons_append, ArgsPass, ArgsPass, ih, length_cons, and_assoc, Nat.add_right_comm,
      Nat.add_assoc]

/-- Between parentheses `b`, the arguments are read as those of a call: blanks do not stand before
the first one, nor after it if it is the condition of an `if`. -/
structure IsCall (b : Brace) (fn : Builtin) (args : List Expansion) : Prop where
  takes : fn.Takes args.length
  passes : ArgsPass b fn 0 args
  ink : ∀ e ∈ args.head?, Text.Ink (skeleton e.glyphs)
  trimmed : fn = .cond → ∀ e ∈ args.head?, ∀ g ∈ e.glyphs.getLast?, g.isBlank = false

end Glyph

open Glyph

/-- The reference is read as itself between parentheses `b`, if the references in it are. -/
def Reference.SpelledIn (b : Brace) : Reference → Prop
  | .variable _ n => IsName b n.glyphs
  | .substitution _ n p s => IsSubstitution b n.glyphs p.glyphs s.glyphs
  | .call _ fn args => IsCall b fn args

/-- The reference is read as itself between parentheses of one kind. -/
def Reference.Spelled (r : Reference) : Prop := ∃ b, r.SpelledIn b

/-- All references among the glyphs are spelled, at every depth. -/
def Glyph.AllSpelled (gs : List Glyph) : Prop := ∀ r, .ref r ∈ gs → ∀ r' ∈ r.within, r'.Spelled

namespace Glyph

theorem allSpelled_nil : AllSpelled [] := nofun

theorem allSpelled_ofText (s : Text) :
    AllSpelled (ofText s) := fun _ hr => absurd hr (ref_not_mem_ofText _ s)

theorem allSpelled_append : AllSpelled (gs ++ hs) ↔ AllSpelled gs ∧ AllSpelled hs := by
  simp only [AllSpelled, mem_append, or_imp, forall_and]

theorem allSpelled_char : AllSpelled (.char c :: gs) ↔ AllSpelled gs := by simp [AllSpelled]

theorem allSpelled_ref : AllSpelled [.ref r] ↔ ∀ r' ∈ r.within, r'.Spelled := by simp [AllSpelled]

theorem allSpelled_iff : AllSpelled e.glyphs ↔ ∀ r ∈ e.within, r.Spelled := by
  simp only [Expansion.mem_within]
  exact ⟨fun h r ⟨r', hr', hr⟩ => h r' hr' r hr, fun h r' hr' r hr => h r ⟨r', hr', hr⟩⟩

theorem AllSpelled.sublist (h : AllSpelled gs) (hsub : hs ⊆ gs) :
    AllSpelled hs := fun r hr => h r (hsub hr)

end Glyph

/-! ## One character -/

theorem Token.callAfter?_singleton (c : Char) : callAfter? [c] = none := by
  rw [callAfter?_eq_none_iff]
  intro f x rest _ heq
  have hname : 2 ≤ f.name.length := by cases f <;> decide
  have hlen := congrArg List.length heq
  simp only [length_append, length_cons, length_nil] at hlen
  omega

/-- The name of a reference of a dollar sign and one character is read between parentheses of the
kind that the character is not. -/
theorem Reference.spelled_char (hc : c ≠ '$') (hopen : Brace.ofOpening? c = none)
    (l l' : Option Location) :
    (Reference.variable l (.literal [c] l')).Spelled := by
  have hglyphs : (Expansion.literal [c] l').glyphs = [.char c] := rfl
  have hfree := callAfter?_singleton c
  obtain ⟨b, hb⟩ : ∃ b : Brace, c ≠ b.closing := by
    by_cases hround : c = ')'
    · exact ⟨.curly, by subst hround; decide⟩
    · exact ⟨.round, hround⟩
  have hno : c ≠ b.opening := by
    rintro rfl
    cases b <;> cases hopen
  refine ⟨b, ?_⟩
  show IsName b _
  rw [hglyphs]
  cases ht : match? [c] with
  | none => exact .whole hfree (.char ht .nil)
  | some t =>
    obtain ⟨rest, hrest⟩ := exists_append_of_match? ht
    have htext : t.text = [c] := by
      rcases cons_eq_append_iff.1 hrest with ⟨hnil, -⟩ | ⟨w, hw, hnil⟩
      · exact absurd hnil (text_ne_nil_of_match? ht)
      · rw [hw, (append_eq_nil_iff.1 hnil.symm).1]
    by_cases hcolon : c = ':'
    · subst hcolon
      exact .divided (by decide) .nil (by decide) .nil
    · have hmark : t.isReference = false := isReference_eq_false ht hc
      have hpass : Passes b [[':']] [] 0 (ofText t.text ++ []) 0 := by
        refine .token (by simpa [htext] using ht) hmark ?_ (fun _ => ?_) .nil
        · rw [htext]
          simp [hno, hb]
        · rw [htext]
          simp [hcolon]
      rw [htext] at hpass
      exact .whole hfree hpass

namespace Expansion

/-- The parts of an open reference that are complete were read as such, and the text `w` of the
current part and all that follows goes with them. -/
def Role.Begun (b : Brace) (w : Text) : Role → Prop
  | .call _ fn args => ArgsPass b fn 0 args.reverse ∧ (∀ e ∈ args, AllSpelled e.glyphs) ∧
      Text.Ink ((args.reverse.map fun e => skeleton e.glyphs).headD w)
  | .name _ => callAfter? w = none
  | .pattern _ n => callAfter? (skeleton (Item.glyphs n)) = none ∧
      Passes b [[':']] [':'] 0 (Item.glyphs n) 0 ∧ AllSpelled (Item.glyphs n) ∧
      match? (':' :: w) = some (.mark [':'])
  | .replacement _ n p => callAfter? (skeleton (Item.glyphs n)) = none ∧
      Passes b [[':']] [':'] 0 (Item.glyphs n) 0 ∧ AllSpelled (Item.glyphs n) ∧
      match? (':' :: (skeleton (Item.glyphs p) ++ ['='])) = some (.mark [':']) ∧
      Passes b [['=']] ['='] 0 (Item.glyphs p) 0 ∧ AllSpelled (Item.glyphs p)

/-- In an open reference, `gs` was gathered for the current part, with `n` parentheses open, and `z`
comes after it. -/
structure Role.Spells (role : Role) (b : Brace) (n : Nat) (gs : List Glyph) (z : Text) : Prop where
  passes : Passes b role.marks z 0 gs n
  begun : role.Begun b (skeleton gs ++ z)
  refs : AllSpelled gs

section Open

variable {role : Role} {n : Nat} {p : Text}

theorem Role.Spells.append (h : role.Spells b n gs (skeleton hs ++ z))
    (hp : Passes b role.marks z n hs k)
    (hr : AllSpelled hs) : role.Spells b k (gs ++ hs) z where
  passes := h.passes.append hp
  begun := by simpa using h.begun
  refs := allSpelled_append.2 ⟨h.refs, hr⟩

theorem lookahead_dollar (z : Text) : lookahead ('$' :: z) = none := rfl

/-- What follows a dollar sign does not matter to what stands before it. -/
theorem Role.Begun.dollar (h : role.Begun b (p ++ '$' :: z)) : role.Begun b (p ++ '$' :: z') := by
  cases role with
  | call loc fn args =>
    obtain ⟨hpass, hspelled, hink⟩ := h
    refine ⟨hpass, hspelled, ?_⟩
    cases hargs : args.reverse.map fun e => skeleton e.glyphs with
    | nil =>
      rw [hargs] at hink
      cases p with
      | nil => exact hink
      | cons c p => exact hink
    | cons u us =>
      rw [hargs] at hink
      exact hink
  | name loc =>
    exact (callAfter?_append_iff border_dollar p z').2
      ((callAfter?_append_iff border_dollar p z).1 h)
  | pattern loc n =>
    obtain ⟨hfree, hpass, hspelled, hcolon⟩ := h
    refine ⟨hfree, hpass, hspelled, ?_⟩
    rw [← hcolon]
    exact match?_append_congr (p := ':' :: p) (by simp) (by simp) (by simp [lookahead_dollar])
      (by simp [lookahead_dollar])
  | replacement loc n p => exact h

theorem Role.Spells.dollar (h : role.Spells b n gs ('$' :: z)) (z' : Text) :
    role.Spells b n gs ('$' :: z') where
  passes := h.passes.congr (by simp [lookahead_dollar]) (by simp [lookahead_dollar])
  begun := h.begun.dollar
  refs := h.refs

end Open

/-- All references that are complete are spelled, and the open ones as far as they go; `gs` is still
to be gathered, and `z` comes after it. -/
def Reader.Spells (st : Reader) (gs : List Glyph) (z : Text) : Prop :=
  match st.frames with
  | [] => AllSpelled (Item.glyphs st.outer.reverse ++ gs)
  | f :: fs => AllSpelled (Item.glyphs st.outer.reverse) ∧
      f.role.Spells f.brace f.nested (Item.glyphs f.gathered.reverse ++ gs) z ∧
      ∀ g ∈ fs, g.role.Spells g.brace g.nested (Item.glyphs g.gathered.reverse) ['$']

/-! ## References that are complete -/

section Complete

variable {n p s : Expansion} {l : Option Location}

theorem spelled_variable (h : IsName b n.glyphs) (hn : AllSpelled n.glyphs) :
    ∀ r ∈ (Reference.variable l n).within, r.Spelled := by
  rw [Reference.within, forall_mem_cons]
  exact ⟨⟨b, h⟩, allSpelled_iff.1 hn⟩

theorem spelled_substitution (h : IsSubstitution b n.glyphs p.glyphs s.glyphs)
    (hn : AllSpelled n.glyphs)
    (hp : AllSpelled p.glyphs) (hs : AllSpelled s.glyphs) :
    ∀ r ∈ (Reference.substitution l n p s).within, r.Spelled := by
  rw [Reference.within, forall_mem_cons, forall_mem_append, forall_mem_append]
  exact ⟨⟨b, h⟩, allSpelled_iff.1 hn, allSpelled_iff.1 hp, allSpelled_iff.1 hs⟩

theorem spelled_call (h : IsCall b fn args) (hargs : ∀ e ∈ args, AllSpelled e.glyphs) :
    ∀ r ∈ (Reference.call l fn args).within, r.Spelled := by
  rw [Reference.within, forall_mem_cons]
  refine ⟨⟨b, h⟩, fun r hr => ?_⟩
  obtain ⟨e, he, hr⟩ := mem_withinArgs.1 hr
  exact allSpelled_iff.1 (hargs e he) r hr

theorem ink_skeleton : Text.Ink (skeleton gs) ↔ ∀ g ∈ gs.head?, g.isBlank = false := by
  rcases gs with _ | ⟨c | r, gs⟩
  · simp [Text.Ink]
  · simp [Text.Ink]
  · have hdollar : Text.isBlank '$' = false := by decide
    simp [Text.Ink, hdollar]

/-- The first text of some and one more is the first of those before. -/
theorem ink_headD_append {us : List Text} {u : Text} (h : Text.Ink (us.headD w))
    (hu : Text.Ink w → Text.Ink u)
    (w' : Text) : Text.Ink ((us ++ [u]).headD w') := by
  cases us with
  | nil => exact hu h
  | cons v us => exact h

theorem of_trimmed_bind {f : Expansion → Except Error Reference} (h : (e.trimmed >>= f) = .ok r) :
    f e = .ok r := by
  unfold Expansion.trimmed at h
  split at h
  · cases h
  · exact h

/-- What a complete call is, and that it has as many arguments as its function takes. -/
theorem makeCall_eq_ok (h : makeCall loc fn args = .ok r) : fn.Takes args.length ∧
    (fn ≠ .cond ∧ r = .call (some loc) fn args ∨ fn = .cond ∧ ∃ c rest, args = c :: rest ∧
      r = .call (some loc) fn (c.trimLeft.trimRight :: rest)) := by
  unfold makeCall at h
  split at h
  · cases h
  rename_i hmin
  split at h
  · cases h
  rename_i hmax
  have htakes : fn.Takes args.length := by
    refine ⟨Nat.le_of_not_lt hmin, fun k hk => Nat.le_of_not_lt fun hlt => hmax ?_⟩
    rw [Option.mem_def.1 hk]
    simpa using hlt
  refine ⟨htakes, ?_⟩
  split at h
  · rename_i c rest
    cases of_trimmed_bind (of_trimmed_bind h)
    exact .inr ⟨rfl, c, rest, rfl, rfl⟩
  · rename_i hcond
    cases h
    refine .inl ⟨?_, rfl⟩
    rintro rfl
    cases args with
    | nil => cases htakes.1
    | cons c rest => exact hcond c rest rfl rfl

/-- **A call that is complete is spelled**, if its arguments were read one by one. -/
theorem spelled_of_makeCall (hpass : ArgsPass b fn 0 args)
    (hink : ∀ e ∈ args.head?, Text.Ink (skeleton e.glyphs))
    (hargs : ∀ e ∈ args, AllSpelled e.glyphs) (h : makeCall loc fn args = .ok r) :
    ∀ r' ∈ r.within, r'.Spelled := by
  obtain ⟨htakes, ⟨hcond, rfl⟩ | ⟨rfl, c, rest, rfl, rfl⟩⟩ := makeCall_eq_ok h
  · exact spelled_call ⟨htakes, hpass, hink, fun h => absurd h hcond⟩ hargs
  · have hglyphs : c.trimLeft.trimRight.glyphs = (c.glyphs.dropWhile isBlank).rdropWhile
        isBlank := by
      rw [glyphs_trimRight, glyphs_trimLeft]
    have hstart : c.trimLeft.trimRight.glyphs <+: c.glyphs.dropWhile isBlank := by
      rw [hglyphs]
      exact rdropWhile_prefix _ _
    obtain ⟨hc, hrest⟩ := forall_mem_cons.1 hargs
    refine spelled_call ⟨htakes, ⟨?_, hpass.2⟩, ?_, fun _ => ?_⟩ (forall_mem_cons.2 ⟨?_, hrest⟩)
    · rw [hglyphs]
      exact hpass.1.dropWhile.rdropWhile
    · rintro _ ⟨⟩
      obtain ⟨gs, hgs⟩ := hstart
      have hfirst : Text.Ink (skeleton (c.glyphs.dropWhile isBlank)) :=
        ink_skeleton.2 fun g hg => by
          have hnot := head?_dropWhile_not isBlank c.glyphs
          rw [Option.mem_def.1 hg] at hnot
          exact hnot
      rw [← hgs, skeleton_append] at hfirst
      exact hfirst.of_append
    · rintro _ ⟨⟩ g hg
      rw [hglyphs] at hg
      have hne : (c.glyphs.dropWhile isBlank).rdropWhile isBlank ≠ [] := by
        intro hnil
        simp [hnil] at hg
      rw [getLast?_eq_some_getLast hne] at hg
      cases hg
      exact Bool.eq_false_iff.2 (rdropWhile_last_not _ _ hne)
    · exact hc.sublist fun g hg => (dropWhile_sublist _).subset (hstart.subset hg)

end Complete

/-! ## Parts that are complete -/

section Ended

variable {name pattern : List Item}

theorem lookahead_closing (b : Brace) (z : Text) :
    lookahead (b.closing :: z) = none := by cases b <;> rfl

/-- An argument ends before a text that its tokens do not see. -/
theorem Role.Spells.argument (h : Role.Spells (.call loc fn args) b 0 (Item.glyphs xs) z)
    (hz : lookahead z = none) (w : Text) :
    Role.Begun b w (.call loc fn (ofItems xs none :: args)) := by
  obtain ⟨hpass, ⟨hargs, hspelled, hink⟩, hrefs⟩ := h
  have hglyphs : (ofItems xs none).glyphs = Item.glyphs xs := glyphs_ofItems _ _
  refine ⟨?_, forall_mem_cons.2 ⟨?_, hspelled⟩, ?_⟩
  · rw [reverse_cons]
    refine argsPass_append.2 ⟨hargs, ?_, trivial⟩
    rw [hglyphs, length_reverse, Nat.zero_add]
    exact hpass.congr hz (by rw [hz]; nofun)
  · rw [hglyphs]
    exact hrefs
  · rw [reverse_cons, map_append, map_singleton, hglyphs]
    exact ink_headD_append hink Text.Ink.of_append w

theorem Role.Begun.call (h : Role.Begun b w (.call loc fn args))
    (hmake : makeCall loc fn args.reverse = .ok r) :
    ∀ r' ∈ r.within, r'.Spelled := by
  obtain ⟨hpass, hargs, hink⟩ := h
  refine spelled_of_makeCall hpass ?_ (fun e he => hargs e (mem_reverse.1 he)) hmake
  generalize args.reverse = as at hink ⊢
  cases as with
  | nil => exact nofun
  | cons e es =>
    rintro _ ⟨⟩
    exact hink

theorem Role.Spells.colon (h : Role.Spells (.name loc) b 0 (Item.glyphs xs) (':' :: z))
    (ht : match? (':' :: z) = some (.mark [':'])) : Role.Begun b z (.pattern loc xs) :=
  ⟨(callAfter?_append_iff border_colon _ z).1 h.begun, h.passes.congr rfl nofun, h.refs, ht⟩

/-- An equals sign ends the pattern. -/
theorem Role.Spells.equals (h : Role.Spells (.pattern loc name) b 0 (Item.glyphs xs) ('=' :: z)) :
    Role.Begun b z (.replacement loc name xs) := by
  obtain ⟨hpass, ⟨hfree, hname, hspelled, hcolon⟩, hrefs⟩ := h
  refine ⟨hfree, hname, hspelled, ?_, hpass.congr rfl nofun, hrefs⟩
  rw [← hcolon]
  exact match?_append_congr (p := ':' :: skeleton (Item.glyphs xs)) (by simp) (by simp) rfl nofun

theorem Role.Spells.next {role : Role} (h : role.Spells b 0 (Item.glyphs xs) (w ++ z))
    (hw : w ∈ role.marks)
    (ht : match? (w ++ z) = some (.mark w)) : (role.next xs).Begun b z := by
  cases role with
  | call loc fn args =>
    obtain ⟨rfl, -⟩ := Role.mem_marks_call.1 hw
    exact h.argument rfl z
  | name loc =>
    cases mem_singleton.1 hw
    exact h.colon ht
  | pattern loc name =>
    cases mem_singleton.1 hw
    exact h.equals
  | replacement loc name pattern => cases hw

theorem Role.Spells.variable (h : Role.Spells (.name loc) b 0 (Item.glyphs xs) (b.closing :: z))
    (l : Option Location) :
    ∀ r ∈ (Reference.variable l (ofItems xs none)).within, r.Spelled := by
  have hnone := lookahead_closing b z
  refine spelled_variable (b := b) ?_ ?_
  · rw [glyphs_ofItems]
    refine .whole ((callAfter?_append_iff (border_closing b) _ z).1 h.begun) ?_
    exact h.passes.congr hnone (by rw [hnone]; nofun)
  · rw [glyphs_ofItems]
    exact h.refs

/-- There was a colon in the name, but no equals sign after it. -/
theorem Role.Spells.divided
    (h : Role.Spells (.pattern loc name) b 0 (Item.glyphs xs) (b.closing :: z))
    (l : Option Location) :
    ∀ r ∈ (Reference.variable l (ofItems (name ++ [.text [':']] ++ xs) none)).within,
    r.Spelled := by
  obtain ⟨hpass, ⟨hfree, hname, hspelled, hcolon⟩, hrefs⟩ := h
  have hnone := lookahead_closing b z
  have hglyphs : (ofItems (name ++ [.text [':']] ++ xs) none).glyphs =
      Item.glyphs name ++ .char ':' :: Item.glyphs xs := by simp
  refine spelled_variable (b := b) ?_ ?_
  · rw [hglyphs]
    refine .divided hfree hname ?_ (hpass.congr hnone (by rw [hnone]; nofun))
    have hsame := match?_append_congr (p := ':' :: skeleton (Item.glyphs xs)) (z := [])
      (by simp) (by simp) hnone.symm nofun
    rw [append_nil] at hsame
    exact hsame.trans hcolon
  · rw [hglyphs]
    exact allSpelled_append.2 ⟨hspelled, allSpelled_char.2 hrefs⟩

theorem Role.Spells.substitution
    (h : Role.Spells (.replacement loc name pattern) b 0 (Item.glyphs xs) (b.closing :: z))
    (l : Option Location) :
    ∀ r ∈ (Reference.substitution l (ofItems name none) (ofItems pattern none)
      (ofItems xs none)).within, r.Spelled := by
  obtain ⟨hpass, ⟨hfree, hname, hspelled, hcolon, hpattern, hspelled'⟩, hrefs⟩ := h
  have hnone := lookahead_closing b z
  refine spelled_substitution (b := b) ?_ ?_ ?_ ?_
  all_goals simp only [glyphs_ofItems]
  · exact ⟨hfree, hname, hcolon, hpattern, hpass.congr hnone (by rw [hnone]; nofun)⟩
  · exact hspelled
  · exact hspelled'
  · exact hrefs

end Ended

namespace Reader

variable {st st' : Reader} {f : Frame} {fs : List Frame}

theorem spells_gather : (st.gather xs).Spells gs z ↔ st.Spells (Item.glyphs xs ++ gs) z := by
  obtain ⟨outer, _ | ⟨f, fs⟩⟩ := st
  · simp [Reader.gather, Reader.Spells]
  · simp [Reader.gather, Reader.Spells]

theorem spells_addText : (st.addText w).Spells gs z ↔ st.Spells (ofText w ++ gs) z := by
  rw [addText_eq_gather, spells_gather, Item.glyphs_ofText]

namespace Spells

theorem push (hs : List Glyph) (h : st.Spells gs (skeleton hs ++ z)) (hr : AllSpelled hs)
    (hp : ∀ f ∈ st.frames.head?, Passes f.brace f.role.marks z f.nested hs f.nested) :
    st.Spells (gs ++ hs) z := by
  obtain ⟨outer, _ | ⟨f, fs⟩⟩ := st
  · have h : AllSpelled (Item.glyphs outer.reverse ++ gs) := h
    show AllSpelled (Item.glyphs outer.reverse ++ (gs ++ hs))
    rw [← append_assoc]
    exact allSpelled_append.2 ⟨h, hr⟩
  · obtain ⟨houter, hf, hfs⟩ := h
    refine ⟨houter, ?_, hfs⟩
    rw [← append_assoc]
    exact hf.append (hp f rfl) hr

theorem dollar (h : st.Spells gs ('$' :: z)) (z' : Text) : st.Spells gs ('$' :: z') := by
  obtain ⟨outer, _ | ⟨f, fs⟩⟩ := st
  · exact h
  · obtain ⟨houter, hf, hfs⟩ := h
    exact ⟨houter, hf.dollar z', hfs⟩

/-- A reference is complete. -/
theorem add_ref (h : st.Spells [] ('$' :: z)) (hr : ∀ r' ∈ r.within, r'.Spelled) (z' : Text) :
    (st.add (.ref r)).Spells [] z' := by
  rw [add_eq_gather, spells_gather]
  exact (h.dollar z').push [.ref r] (allSpelled_ref.2 hr) fun f _ => .ref .nil

theorem enter (h : st.Spells [] ('$' :: z)) {role : Role} (hrole : role.Begun b z') :
    (st.enter b role).Spells [] z' := by
  have hnew : role.Spells b 0 [] z' := ⟨.nil, hrole, allSpelled_nil⟩
  have h := h.dollar []
  obtain ⟨outer, _ | ⟨f, fs⟩⟩ := st
  · have h : AllSpelled (Item.glyphs outer.reverse ++ []) := h
    rw [append_nil] at h
    exact ⟨h, hnew, nofun⟩
  · obtain ⟨houter, hf, hfs⟩ := h
    rw [append_nil] at hf
    exact ⟨houter, hnew, forall_mem_cons.2 ⟨hf, hfs⟩⟩

/-- The innermost open reference is left. -/
theorem leave (h : st.Spells gs z) (hst : st.frames = f :: fs) (hr : ∀ r' ∈ r.within, r'.Spelled)
    (z' : Text) :
    (st.leave r).Spells [] z' := by
  obtain ⟨outer, frames⟩ := st
  cases hst
  obtain ⟨houter, -, hfs⟩ := h
  have hbelow : Reader.Spells ⟨outer, fs⟩ [] ['$'] := by
    cases fs with
    | nil => simpa [Reader.Spells] using houter
    | cons g gs =>
      obtain ⟨hg, hgs⟩ := forall_mem_cons.1 hfs
      exact ⟨houter, by simpa using hg, hgs⟩
  exact hbelow.add_ref hr z'

theorem top (h : st.Spells [] z) (hst : st.frames = f :: fs) :
    f.role.Spells f.brace f.nested (Item.glyphs f.gathered.reverse) z := by
  unfold Reader.Spells at h
  rw [hst] at h
  simpa using h.2.1

/-- The innermost open reference is replaced. -/
theorem setTop (h : st.Spells [] z) (hst : st.frames = f :: fs) {g : Frame}
    (hg : g.role.Spells g.brace g.nested (Item.glyphs g.gathered.reverse) z') :
    (st.setTop g).Spells [] z' := by
  unfold Reader.Spells at h
  rw [hst] at h
  unfold Reader.Spells Reader.setTop
  rw [hst]
  exact ⟨h.1, by simpa using hg, h.2.2⟩

/-- A parenthesis that closes the innermost open reference makes it complete. -/
theorem close (h : st.Spells [] (f.brace.closing :: z)) (hst : st.frames = f :: fs)
    (hn : f.nested = 0)
    (hgives : Gives (st.close f) ns st' ns') : st'.Spells [] z := by
  have hf := h.top hst
  rw [hn] at hf
  have hleave {r : Reference} {ns1 : List Notice} (hr : ∀ r' ∈ r.within, r'.Spelled)
      (hgives : Gives (pure (st.leave r) : ParseM Reader) ns1 st' ns') : st'.Spells [] z := by
    cases hgives
    exact h.leave hst hr z
  unfold Reader.close at hgives
  split at hgives <;> rename_i hrole <;> rw [hrole] at hf
  · obtain ⟨r, ns1, hmake, hgives⟩ := hgives.of_bind
    exact hleave ((hf.argument (lookahead_closing _ z) []).call (gives_liftM.1 hmake).1) hgives
  · exact hleave (hf.variable _) hgives
  · obtain ⟨_, ns1, -, hgives⟩ := hgives.of_bind
    exact hleave (hf.divided _) hgives
  · exact hleave (hf.substitution _) hgives

/-- **A mark inside of an open reference is taken up.** -/
theorem mark (h : st.Spells [] (w ++ z)) (hst : st.frames = f :: fs) (hw : w ∈ f.tokens)
    (ht : match? (w ++ z) = some (.mark w)) (hgives : Gives (st.mark f w) ns st' ns') :
    st'.Spells [] z := by
  have hf := h.top hst
  have htop {g : Frame} (hg : g.role.Spells g.brace g.nested (Item.glyphs g.gathered.reverse) z)
      (hgives : Gives (pure (st.setTop g) : ParseM Reader) ns st' ns') : st'.Spells [] z := by
    cases hgives
    exact h.setTop hst hg
  have hparen {c : Char} {n : Nat}
    (hf : f.role.Spells f.brace f.nested (Item.glyphs f.gathered.reverse) (c :: z))
      (hpass : Passes f.brace f.role.marks z f.nested [.char c] n) :
      f.role.Spells f.brace n (Item.glyphs (.text [c] :: f.gathered).reverse) z := by
    have hmore : f.role.Spells f.brace n (Item.glyphs f.gathered.reverse ++ [.char c]) z :=
      .append hf hpass (allSpelled_ofText [c])
    simpa using hmore
  have hdollar : w ≠ ['$'] := by
    rintro rfl
    exact head_ne_dollar ht rfl rfl
  have htakes := takes_mark hw hdollar st
  generalize st.mark f w = p at htakes hgives
  cases htakes with
  | opening => exact htop (hparen hf (.opening .nil)) hgives
  | inner hn =>
    refine htop (hparen hf ?_) hgives
    rw [hn]
    exact .closing .nil
  | closing hn => exact close h hst hn hgives
  | awaited hn hmark =>
    rw [hn] at hf
    have hnext : (f.role.next f.gathered.reverse).Spells f.brace f.nested [] z :=
      ⟨by rw [hn]; exact .nil, hf.next hmark ht, allSpelled_nil⟩
    exact htop hnext hgives

end Spells

end Reader

/-! ## One token -/

section Step

variable {d : Line} {stops : List Text} {st st' : Reader} {before s : Text} {t : Token} {o : Nat}
  {blanks : Text} {fresh : Bool} {read : Read}
  {tokens : List Text} {x : Lexeme}

theorem read_eq_plain (h : Mode.data.read tokens x = .plain w) :
    Mode.wants tokens x.token = false ∧ w = x.before ++ x.token.text := by
  dsimp only [Mode.read, Mode.flat] at h
  split at h
  · cases h
  · rename_i hwants
    cases h
    exact ⟨Bool.eq_false_iff.2 hwants, rfl⟩

theorem read_eq_found (h : Mode.data.read tokens x = .found w) : w = x.before := by
  dsimp only [Mode.read, Mode.flat] at h
  split at h
  · cases h
    rfl
  · cases h

/-- A reference of a dollar sign and one character goes with what was read before it. -/
theorem Reader.Spells.reference (h : st.Spells [] ('$' :: c :: s))
    (ht : match? ('$' :: c :: s) = some (.reference c)) (loc : Location) :
    (st.reference loc c).Spells [] s := by
  unfold Reader.reference
  split
  · rename_i hc
    rw [eq_of_beq hc] at h
    rw [Reader.spells_addText]
    exact (h.dollar s).push [.char '$'] (allSpelled_ofText ['$']) fun f _ => .dollar .nil
  · rename_i hc
    split
    · rename_i b hb
      obtain rfl := opening_of_ofOpening? hb
      exact h.enter (match?_reference_iff.1 ht)
    · rename_i hopen
      refine h.add_ref ?_ s
      rw [Reference.within, forall_mem_cons]
      exact ⟨Reference.spelled_char (by simpa using hc) hopen _ _, nofun⟩

/-- **Every token leads on to a state in which all references are spelled.** -/
theorem Reader.Spells.goes (h : st.Spells (ofText before.reverse) (t.text ++ s))
    (ht : match? (t.text ++ s) = some t)
    (hgoes : st.Goes d .data stops ⟨before.reverse, t, o⟩ st') :
    st'.Spells [] s := by
  have hnow : (st.addText before.reverse).Spells [] (t.text ++ s) := by
    rw [Reader.spells_addText, append_nil]
    exact h
  cases hgoes with
  | plain read =>
    obtain ⟨hwants, rfl⟩ := read_eq_plain read
    obtain ⟨hno, href⟩ : t.text ∉ st.tokens stops ∧ t.isReference = false := by
      simpa [Mode.wants, Reader.dollar_mem_tokens] using hwants
    rw [Reader.spells_addText, append_nil, ofText_append]
    refine Reader.Spells.push _ (by simpa using h) (allSpelled_ofText _) fun f hf => ?_
    have htokens : st.tokens stops = f.tokens := by
      obtain ⟨fs, hfs⟩ := head?_eq_some_iff.1 hf
      unfold Reader.tokens
      rw [hfs]
    rw [htokens, Frame.mem_tokens, not_or] at hno
    have htoken : Passes f.brace f.role.marks s f.nested (ofText t.text ++ []) f.nested := by
      refine .token ht href ⟨fun heq => hno.1 ?_, fun heq => hno.1 ?_⟩
        (fun hn hmem => hno.2 ⟨hn, hmem⟩) .nil
      · simp [heq]
      · simp [heq]
    simpa using htoken
  | @reference w c read token =>
    obtain rfl := read_eq_found read
    subst token
    exact hnow.reference ht _
  | @call w blanks b fn read token =>
    obtain rfl := read_eq_found read
    subst token
    exact hnow.enter ⟨trivial, forall_mem_nil _, (match?_call_iff.1 ht).2⟩
  | mark read token top gives =>
    obtain rfl := read_eq_found read
    have hmem := Reader.mem_tokens_of_read read token top
    exact hnow.mark top hmem (ht.trans (congrArg some (eq_mark_of_mem_tokens ht token hmem))) gives

/-! ## Whole texts -/

theorem finish_gives {located : Bool} (h : Gives (st.finish d located) ns read ns') :
    st.frames = [] ∧ read.exp = ofItems st.outer.reverse (some d.loc) := by
  unfold Reader.finish at h
  split at h
  · rename_i hempty
    cases h
    exact ⟨List.isEmpty_iff.1 hempty, rfl⟩
  · split at h <;> cases h

/-- A token ends the reading outside of all references, or leads on. -/
theorem resume_token_gives (ht : match? (t.text ++ s) = some t)
    (h : Gives (resume d .data stops fresh st before o (t.text ++ s)) ns read ns') :
    (st.addText before.reverse).frames = [] ∧
        read.exp = ofItems (st.addText before.reverse).outer.reverse (some d.loc) ∨
      ∃ fresh' st' ns1, st.Goes d .data stops ⟨before.reverse, t, o⟩ st' ∧
        Gives (resume d .data stops fresh' st' [] (o + t.text.length) s) ns1 read ns' := by
  unfold resume at h
  rw [scan_token ht] at h
  cases hread : (st.mode .data).read (st.tokens stops) ⟨before.reverse, t, o⟩ with
  | ended w =>
    have hdata : Mode.data.read (st.tokens stops) ⟨before.reverse, t, o⟩ = .ended w := hread
    dsimp only [Mode.read] at hdata
    split at hdata <;> cases hdata
  | plain w =>
    rw [readLexemes, hread] at h
    exact .inr ⟨false, _, ns, .plain hread, h⟩
  | found w =>
    obtain rfl := read_eq_found hread
    cases t with
    | hash | mark =>
      cases hframes : (st.addText before.reverse).frames with
      | nil =>
        rw [readLexemes_mark_outside hread rfl hframes] at h
        split at h
        · cases h
        · cases h
          exact .inl ⟨rfl, rfl⟩
      | cons f fs =>
        rw [readLexemes_mark_inside hread rfl hframes] at h
        obtain ⟨st', ns1, hmark, h⟩ := h.of_bind
        exact .inr ⟨true, st', ns1, .mark hread rfl hframes hmark, h⟩
    | dollar =>
      rw [readLexemes, hread] at h
      dsimp only at h
      split at h
      · exact .inl (finish_gives h)
      · cases h
    | reference c =>
      rw [readLexemes, hread] at h
      exact .inr ⟨true, _, ns, .reference hread rfl, h⟩
    | call b fn blanks =>
      rw [readLexemes, hread] at h
      exact .inr ⟨true, _, ns, .call hread rfl, h⟩

theorem Reader.Spells.within (h : st.Spells [] s) (hst : st.frames = []) (l : Option Location) :
    ∀ r ∈ (ofItems st.outer.reverse l).within, r.Spelled := by
  unfold Reader.Spells at h
  rw [hst, append_nil] at h
  rw [← allSpelled_iff, glyphs_ofItems]
  exact h

/-- **What is read from a state in which all references are spelled has only such references.** -/
theorem resume_spelled (h : st.Spells (ofText before.reverse) s)
    (hgives : Gives (resume d .data stops fresh st before o s) ns read ns') :
    ∀ r ∈ read.exp.within, r.Spelled := by
  induction s using match?_induction generalizing st before fresh o ns with
  | nil =>
    have hnow : (st.addText before.reverse).Spells [] [] := by
      rw [Reader.spells_addText, append_nil]
      exact h
    unfold resume at hgives
    rw [Lexeme.scan, readLexemes_nil] at hgives
    obtain ⟨hframes, hexp⟩ := finish_gives hgives
    rw [hexp]
    exact hnow.within hframes _
  | char c s ht ih =>
    rw [resume_shift ht] at hgives
    have hnext : st.Spells (ofText (c :: before).reverse) s := by
      rw [reverse_cons, ofText_append]
      exact h.push [.char c] (allSpelled_ofText [c]) fun f _ => .char ht .nil
    exact ih hnext hgives
  | token t rest ht ih =>
    rcases resume_token_gives ht hgives with ⟨hframes, hexp⟩ | ⟨fresh', st', ns1, hgoes, hgives⟩
    · have hnow : (st.addText before.reverse).Spells [] (t.text ++ rest) := by
        rw [Reader.spells_addText, append_nil]
        exact h
      rw [hexp]
      exact hnow.within hframes _
    · have hnext : st'.Spells (ofText ([] : Text).reverse) rest := h.goes ht hgoes
      exact ih hnext hgives

/-- **All references of an expansion that was read are spelled**, at every depth. -/
theorem parse_spelled (h : Gives (parse d o stops .data) ns read ns') :
    ∀ r ∈ read.exp.within, r.Spelled := by
  have hstart : Reader.Spells ⟨[], []⟩ (ofText ([] : Text).reverse) (d.rest o) := allSpelled_nil
  by_cases hcovers : d.covers o = true
  · rw [parse_eq_resume hcovers] at h
    exact resume_spelled hstart h
  · unfold parse at h
    rw [if_neg hcovers] at h
    cases h

end Step

end Expansion

end Rebuild
