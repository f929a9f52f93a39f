import Rebuild.Proofs.Expansion.Beginning
import Rebuild.Proofs.Expansion.Inside
import Rebuild.Proofs.Statement.Structured
/-!
# Substitution references

A reference to a variable has a colon and an equals sign in it where the words of its value are to
be changed. Both are tokens of one character among others: two colons and the assignment signs `:=`,
`+=` and `?=` are tokens of their own, and a colon before a slash is none, so that names may be
paths. Where colon and equals sign stand by themselves, the three texts around them are read as they
stand; where a slash follows the colon, both belong to the name (`parse_substitution`).
-/

namespace Rebuild

open List Token

variable {s u z : Text} {t : Token} {items : List Item} {loc : Location}

/-! ## Equals signs that stand by themselves -/

namespace Text

/-- How many colons a text ends with. -/
def colonsAtEnd (s : Text) : Nat := (s.reverse.takeWhile (· == ':')).length

/-- An equals sign after the text stands by itself. Two colons are a token, so it is a colon left
over that takes the equals sign. -/
structure LeavesEquals (s : Text) : Prop where
  colons : s.colonsAtEnd % 2 = 0
  plus : s.getLast? ≠ some '+'
  question : s.getLast? ≠ some '?'

theorem colonsAtEnd_append (u s : Text) :
    (u ++ s).colonsAtEnd = s.colonsAtEnd + if ∀ c ∈ s, c = ':' then u.colonsAtEnd else 0 := by
  unfold colonsAtEnd
  rw [reverse_append]
  split
  · rename_i hall
    have hrev : ∀ c ∈ s.reverse, (c == ':') = true :=
      fun c hc => beq_iff_eq.2 (hall c (mem_reverse.1 hc))
    rw [takeWhile_append_of_pos hrev, length_append, takeWhile_eq_self_iff.2 hrev]
  · rename_i hother
    have hlen : ¬ (s.reverse.takeWhile (· == ':')).length = s.reverse.length := by
      intro hlen
      have hstart : s.reverse.takeWhile (· == ':') <+: s.reverse := takeWhile_prefix _
      have hself := hstart.eq_of_length hlen
      exact hother fun c hc => eq_of_beq (takeWhile_eq_self_iff.1 hself c (mem_reverse.2 hc))
    rw [takeWhile_append, if_neg hlen]
    rfl

/-- What follows colons that pair up, or goes on with something else, leaves equals signs alone. -/
theorem LeavesEquals.of_append (h : LeavesEquals (u ++ s))
    (hu : colonsAtEnd u % 2 = 0 ∨ ∃ c ∈ s, c ≠ ':') :
    LeavesEquals s := by
  have hlast : ∀ c, s.getLast? = some c → (u ++ s).getLast? = some c := by
    intro c hc
    rw [getLast?_append, hc]
    rfl
  refine ⟨?_, mt (hlast '+') h.plus, mt (hlast '?') h.question⟩
  have hcolons := h.colons
  rw [colonsAtEnd_append] at hcolons
  rcases hu with heven | ⟨c, hc, hne⟩
  · split at hcolons <;> omega
  · rw [if_neg fun hall => hne (hall c hc)] at hcolons
    exact hcolons

end Text

namespace Token

variable {c : Char}

/-- A colon at which no token begins is followed by a slash, not by another colon. -/
theorem leavesEquals_of_match?_eq_none (h : Text.LeavesEquals (c :: s))
    (ht : match? (c :: s ++ '=' :: z) = none) :
    Text.LeavesEquals s := by
  refine Text.LeavesEquals.of_append (u := [c]) h ?_
  by_cases hc : c = ':'
  · subst hc
    right
    cases s with
    | nil => cases ht
    | cons x s =>
      refine ⟨x, mem_cons_self, ?_⟩
      rintro rfl
      cases ht
  · left
    simp [Text.colonsAtEnd, hc]

/-- A token before an equals sign that stands by itself ends before it, and still leaves it
alone. -/
theorem exists_append_of_leavesEquals (hequals : '=' ∉ c :: s) (hdollar : c ≠ '$')
    (h : Text.LeavesEquals (c :: s)) (ht : match? (c :: s ++ '=' :: z) = some t) :
    ∃ rest, c :: s = t.text ++ rest ∧ Text.LeavesEquals rest := by
  have hhead : (c :: s ++ '=' :: z).head? ≠ some '$' := by simpa using hdollar
  obtain ⟨r, hr⟩ := exists_append_of_match? ht
  obtain ⟨n, rfl⟩ | ⟨w, hw, rfl⟩ := hash_or_mark ht hhead
  · have hno : '=' ∉ (hash n).text := fun hmem => by simpa using mem_text_hash hmem
    obtain ⟨rest, hrest⟩ := exists_append_of_not_mem hr hno
    rw [hrest] at h
    refine ⟨rest, hrest, h.of_append (.inl ?_)⟩
    rw [text, Text.colonsAtEnd_append]
    simp [Text.colonsAtEnd]
  by_cases hmem : '=' ∈ w
  · have hmarks : ∀ w ∈ marks, '=' ∈ w → w = ['='] ∨ ∃ a ∈ [':', '+', '?'], w = [a, '='] := by
      decide
    rcases hmarks w hw hmem with rfl | ⟨a, ha, rfl⟩
    · exact absurd ((List.cons.inj hr).1 ▸ mem_cons_self) hequals
    · obtain ⟨rfl, hs⟩ := List.cons.inj hr
      cases s with
      | cons x s => exact absurd ((List.cons.inj hs).1 ▸ by simp) hequals
      | nil =>
        simp only [mem_cons, not_mem_nil, or_false] at ha
        rcases ha with rfl | rfl | rfl
        · cases h.colons
        · exact absurd rfl h.plus
        · exact absurd rfl h.question
  · obtain ⟨rest, hrest⟩ := exists_append_of_not_mem hr hmem
    have hmarks : ∀ w ∈ marks, '=' ∉ w → Text.colonsAtEnd w % 2 = 0 ∨ w = [':'] := by decide
    rw [hrest] at h
    refine ⟨rest, hrest, h.of_append ((hmarks w hw hmem).imp_right ?_)⟩
    rintro rfl
    obtain ⟨rfl, rfl⟩ := List.cons.inj hrest
    cases s with
    | nil => cases ht
    | cons x s =>
      refine ⟨x, mem_cons_self, ?_⟩
      rintro rfl
      cases ht

end Token

namespace Expansion

section Reading

variable {p : Part} {d : Line} {stops : List Text} {st : Reader} {offset : Nat} {w : Text}
  {Q : ParseM Read → Prop}

/-! ## Stretches of a part -/

namespace Part

/-- None of the marks that matter in the part stands in the text. -/
def Plain (p : Part) (s : Text) : Prop := ∀ w ∈ p.tokens, ∃ x ∈ w, x ∉ s

theorem Plain.dollar (h : p.Plain s) : '$' ∉ s := by
  obtain ⟨x, hx, hs⟩ := h ['$'] (mem_tokens.2 (.inl (by simp)))
  rwa [mem_singleton.1 hx] at hs

theorem Plain.of_append (h : p.Plain (u ++ s)) : p.Plain s := fun w hw =>
  (h w hw).imp fun _ hx => ⟨hx.1, fun hs => hx.2 (mem_append_right u hs)⟩

theorem Plain.not_mem_tokens (h : p.Plain (u ++ s)) : u ∉ p.tokens := by
  intro hu
  obtain ⟨x, hx, hno⟩ := h u hu
  exact hno (mem_append_left s hx)

/-- A stretch without marks that matter is text, if no token crosses its border. -/
theorem Reads.plain (hw : p.Plain w) (hz : Token.Apart w z)
    (h : (p.push w).Reads d stops st (offset + w.length) z Q) :
    p.Reads d stops st offset (w ++ z) Q := by
  refine Reads.stretch (P := fun s => p.Plain s ∧ Token.Apart s z) ?_ ?_ ⟨hw, hz⟩ h
  · intro c s hs _
    exact ⟨hs.1.of_append (u := [c]), hs.2.of_append (w := [c])⟩
  · intro c s t ⟨hs, hz⟩ ht
    have hc : c ≠ '$' := fun hc => hs.dollar (hc ▸ mem_cons_self)
    obtain ⟨rest, hrest⟩ := exists_append_of_apart hz hc ht
    rw [hrest] at hs hz
    exact ⟨isReference_eq_false ht hc, hs.not_mem_tokens, rest, hrest, hs.of_append, hz.of_append⟩

/-- A stretch without marks that matter is text up to an equals sign that stands by itself. -/
theorem Reads.beforeEquals (hw : p.Plain w) (hequals : '=' ∉ w) (hleaves : Text.LeavesEquals w)
    (h : (p.push w).Reads d stops st (offset + w.length) ('=' :: z) Q) :
    p.Reads d stops st offset (w ++ '=' :: z) Q := by
  refine Reads.stretch (P := fun s => p.Plain s ∧ '=' ∉ s ∧ Text.LeavesEquals s) ?_ ?_
    ⟨hw, hequals, hleaves⟩ h
  · intro c s ⟨hs, hequals, hleaves⟩ ht
    exact ⟨hs.of_append (u := [c]), fun hmem => hequals (mem_cons_of_mem c hmem),
      leavesEquals_of_match?_eq_none hleaves ht⟩
  · intro c s t ⟨hs, hequals, hleaves⟩ ht
    have hc : c ≠ '$' := fun hc => hs.dollar (hc ▸ mem_cons_self)
    obtain ⟨rest, hrest, hrestLeaves⟩ := exists_append_of_leavesEquals hequals hc hleaves ht
    rw [hrest] at hs hequals
    exact ⟨isReference_eq_false ht hc, hs.not_mem_tokens, rest, hrest, hs.of_append,
      fun hmem => hequals (mem_append_right _ hmem), hrestLeaves⟩

variable {b : Brace} {name pattern : List Item}

theorem plain_name_iff :
    Plain ⟨b, 0, .name loc, u⟩ s ↔ ':' ∉ s ∧ b.opening ∉ s ∧ b.closing ∉ s ∧ '$' ∉ s := by
  simp [Plain, tokens, Frame.tokens]

theorem plain_pattern_iff :
    Plain ⟨b, 0, .pattern loc name, u⟩ s ↔ '=' ∉ s ∧ b.opening ∉ s ∧ b.closing ∉ s ∧ '$' ∉ s := by
  simp [Plain, tokens, Frame.tokens]

theorem plain_replacement_iff :
    Plain ⟨b, 0, .replacement loc name pattern, u⟩ s ↔ b.opening ∉ s ∧ b.closing ∉ s ∧ '$' ∉ s := by
  simp [Plain, tokens, Frame.tokens]

end Part

/-! ## Three texts -/

variable {b : Brace} {name pattern replacement : Text} {n : Text}

/-- What is read after the colon: the pattern up to the equals sign, and the replacement. -/
theorem reads_pattern (hplain : ∀ c ∈ [b.opening, b.closing, '$'], c ∉ pattern ++ replacement)
    (hequals : '=' ∉ pattern) (hleaves : Text.LeavesEquals pattern)
    (hitems : Item.hasRef items = false) :
    Part.Reads ⟨b, 0, .pattern loc items, []⟩ d stops ⟨[], []⟩ offset
      (pattern ++ '=' :: (replacement ++ [b.closing]))
        (· = pure ⟨.sequence [.ref (.substitution (some loc)
        (.literal (Item.textOf items) none) (.literal pattern none) (.literal replacement none))]
          (some d.loc),
        none⟩) := by
  obtain ⟨⟨hopening, hopening'⟩, ⟨hclosing, hclosing'⟩, hdollar, hdollar'⟩ :
      (b.opening ∉ pattern ∧ b.opening ∉ replacement) ∧
      (b.closing ∉ pattern ∧ b.closing ∉ replacement) ∧
        '$' ∉ pattern ∧ '$' ∉ replacement := by
    simpa using hplain
  refine Part.Reads.beforeEquals (Part.plain_pattern_iff.2 ⟨hequals, hopening, hclosing, hdollar⟩)
    hequals hleaves ?_
  refine Part.Reads.awaited rfl mem_cons_self (Part.match?_equals _) fun items' hitems' htext' => ?_
  refine Part.Reads.plain (Part.plain_replacement_iff.2 ⟨hopening', hclosing', hdollar'⟩)
    (.inr (by simpa using closing_not_mem_joints b)) ?_
  refine Part.Reads.closing rfl fun g hg => ?_
  have hclose : Reader.close ⟨[], [g]⟩ g = pure (Reader.add ⟨[], []⟩ (.ref (.substitution (some loc)
      (.literal (Item.textOf items) none) (.literal pattern none)
        (.literal replacement none)))) := by
    unfold Reader.close
    rw [hg.role]
    simp only [Part.push, Role.next, hg.items, ofItems_eq_literal hitems,
      ofItems_eq_literal hitems', htext']
    rfl
  rw [hclose, pure_bind]
  exact Part.resume_ref ⟨rfl, rfl⟩ _ _

/-- What is read after the name, where the colon stands by itself. -/
theorem reads_colon {x : Char} (hx : x ∉ ['=', ':', '/', '\\'])
    (hplain : ∀ c ∈ [b.opening, b.closing, '$'], c ∉ x :: pattern ++ replacement)
    (hequals : '=' ∉ x :: pattern) (hleaves : Text.LeavesEquals (x :: pattern)) :
    Part.Reads ⟨b, 0, .name loc, name⟩ d stops ⟨[], []⟩ offset
      (':' :: (x :: pattern ++ '=' :: (replacement ++ [b.closing])))
        (· = pure ⟨.sequence [.ref (.substitution
        (some loc) (.literal name none) (.literal (x :: pattern) none) (.literal replacement none))]
          (some d.loc),
        none⟩) := by
  have ht : match? (':' :: (x :: pattern ++ '=' :: (replacement ++ [b.closing]))) =
      some (.mark [':']) := by
    simp only [mem_cons, not_mem_nil, or_false, not_or] at hx
    rw [match?_eq_markAt (by decide) (by decide)]
    simp [lookahead, goings, markAt, Option.filter, hx]
  refine Part.Reads.awaited rfl mem_cons_self ht fun items hitems htext => ?_
  rw [← show Item.textOf items = name from htext]
  exact reads_pattern hplain hequals hleaves hitems

/-! ## Names that go on -/

/-- The reference is to a variable whose name begins with a text. -/
def Named (n : Text) : Reference → Prop
  | .variable _ e | .substitution _ e _ _ => e.Begins n
  | .call .. => False

/-- The name that the part has or belongs to begins with a text. -/
def Part.Names (n : Text) (p : Part) : Prop :=
  match p.role with
  | .name _ => n <+: p.text
  | .pattern _ items | .replacement _ items _ => Item.hasRef items = false ∧ n <+: Item.textOf items
  | .call .. => False

theorem Part.Names.push (h : p.Names n) (s : Text) : (p.push s).Names n := by
  obtain ⟨b, n, role, text⟩ := p
  cases role with
  | name loc => exact List.IsPrefix.trans h (prefix_append _ _)
  | pattern loc items => exact h
  | replacement loc items items' => exact h
  | call loc fn args => exact h

/-- A single reference to a variable whose name begins with a text is read, perhaps with a
remark. -/
def Refers (d : Line) (n : Text) (x : ParseM Read) : Prop :=
  ∀ ns, ∃ ref ns', Gives x ns ⟨.sequence [.ref ref] (some d.loc), none⟩ ns' ∧ Named n ref

theorem refers_of_close {f : Frame} (ref : Reference) (hnamed : Named n ref)
    (h : ∀ ns, ∃ ns', Gives (Reader.close ⟨[], [f]⟩ f) ns (Reader.add ⟨[], []⟩ (.ref ref)) ns') :
    Refers d n
      (Reader.close ⟨[], [f]⟩ f >>= fun st' => resume d .data stops true st' [] offset []) := by
  intro ns
  obtain ⟨ns', hclose⟩ := h ns
  refine ⟨ref, ns', gives_bind.2 ⟨_, ns', hclose, ?_⟩, hnamed⟩
  rw [Part.resume_ref ⟨rfl, rfl⟩]
  exact rfl

/-- A part that belongs to a name is closed to a reference by that name. -/
theorem Part.Names.closing (h : p.Names n) (hp : p.nested = 0) :
    p.Reads d stops ⟨[], []⟩ offset [p.brace.closing] (Refers d n) := by
  refine Part.Reads.closing hp fun g hg => ?_
  obtain ⟨b, k, role, text⟩ := p
  cases role with
  | name loc =>
    refine refers_of_close (.variable (some loc) (.literal text none)) h fun ns => ⟨ns, ?_⟩
    rw [show Reader.close ⟨[], [g]⟩ g = _ from hg.close_name rfl ⟨[], []⟩]
    exact rfl
  | pattern loc items =>
    have htext : ofItems (items ++ [.text [':']] ++ g.gathered.reverse) none =
        .literal (Item.textOf items ++ (':' :: text)) none := by
      have hplain : Item.hasRef (items ++ [.text [':']] ++ g.gathered.reverse) = false := by
        have hitems := h.1
        have hgathered := hg.plain
        simp only [Item.hasRef, any_append, any_reverse, Bool.or_eq_false_iff] at hitems hgathered ⊢
        exact ⟨⟨hitems, rfl⟩, hgathered⟩
      have hpart : Item.textOf g.gathered.reverse = text := by simpa using hg.text
      rw [ofItems_eq_literal hplain, ← hpart]
      simp [Item.textOf]
    refine refers_of_close
      (.variable (some loc) (.literal (Item.textOf items ++ (':' :: text)) none))
      (h.2.trans (prefix_append _ _)) fun ns => ⟨ns ++ [⟨loc⟩], ?_⟩
    unfold Reader.close
    rw [hg.role]
    dsimp only
    rw [htext]
    exact gives_bind.2 ⟨(), _, gives_modify.2 rfl, rfl⟩
  | replacement loc items items' =>
    refine refers_of_close (.substitution (some loc) (.literal (Item.textOf items) none)
      (ofItems items' none) (.literal text none)) h.2 fun ns => ⟨ns, ?_⟩
    unfold Reader.close
    rw [hg.role]
    dsimp only
    rw [hg.items, ofItems_eq_literal h.1]
    exact rfl
  | call loc fn args => exact h.elim

/-- The part after one that belongs to a name belongs to it. -/
theorem Part.Names.next (h : p.Names n) (hitems : Item.hasRef items = false)
    (htext : Item.textOf items = p.text) : Part.Names n ⟨p.brace, 0, p.role.next items, []⟩ := by
  obtain ⟨b, k, role, text⟩ := p
  cases role with
  | name loc => exact ⟨hitems, htext ▸ h⟩
  | pattern loc items' => exact h
  | replacement loc items' items'' => exact h
  | call loc fn args => exact h.elim

/-- **A name goes on, or its reference does**: whatever text follows up to the closing parenthesis,
the name of the variable begins as it was begun. -/
theorem Part.Names.reads {r : Text} (h : p.Names n) (hp : p.nested = 0)
    (hplain : ∀ c ∈ [p.brace.opening, p.brace.closing, '$'], c ∉ r) :
    p.Reads d stops ⟨[], []⟩ offset (r ++ [p.brace.closing]) (Refers d n) := by
  induction r using pieces_induction generalizing p offset with
  | nil => exact h.closing hp
  | cons c r ih =>
    have hrest {q : Part} {u v : Text} {o : Nat} (hcr : c :: r = u ++ v) (hu : u ≠ [])
      (hq : q.Names n)
        (hnested : q.nested = 0) (hbrace : q.brace = p.brace) :
        q.Reads d stops ⟨[], []⟩ o (v ++ [p.brace.closing]) (Refers d n) := by
      rw [← hbrace]
      refine ih u v hcr hu hq hnested fun x hx hmem => ?_
      rw [hbrace] at hx
      exact hplain x hx (hcr ▸ mem_append_right u hmem)
    have hc : c ≠ '$' := fun hc => hplain '$' (by simp) (hc ▸ mem_cons_self)
    cases ht : match? (c :: r ++ [p.brace.closing]) with
    | none => exact Part.Reads.char ht (hrest (u := [c]) rfl (cons_ne_nil _ _) (h.push [c]) hp rfl)
    | some t =>
      have hapart : Token.Apart (c :: r) [p.brace.closing] :=
        .inr (by simpa using closing_not_mem_joints p.brace)
      obtain ⟨v, hv⟩ := exists_append_of_apart hapart hc ht
      have hne := text_ne_nil_of_match? ht
      have href := isReference_eq_false ht hc
      by_cases hmem : t.text ∈ p.tokens
      · rcases Part.mem_tokens.1 hmem with hbase | ⟨-, hmark⟩
        · have hchar : ∃ x ∈ [p.brace.opening, p.brace.closing, '$'], t.text = [x] := by
            simpa using hbase
          obtain ⟨x, hx, htext⟩ := hchar
          exact absurd (hv ▸ by simp [htext]) (hplain x hx)
        · obtain ⟨x, -, htext⟩ := Role.exists_of_mem_marks hmark
          rw [(eq_mark_of_mem_tokens ht href hmem).trans (congrArg Token.mark htext)] at ht
          rw [htext] at hv hne hmark
          cases hv
          refine Part.Reads.awaited hp hmark ht fun items hitems htext => ?_
          exact hrest rfl hne (h.next hitems htext) rfl rfl
      · have hgoes := hrest (o := offset + t.text.length) hv hne (h.push t.text) hp rfl
        rw [hv, append_assoc] at ht ⊢
        exact Part.Reads.token ht href hmem hgoes

/-! ## Whole references -/

/-- The name in a reference is read up to the first colon, whatever follows. -/
theorem enters_name (hcovers : d.covers offset = true)
    (hrest : d.rest offset = '$' :: b.opening :: (name ++ ':' :: z)) (hname : Statement.IsName name)
    (h : Part.Reads ⟨b, 0, .name (d.locAt offset), name⟩ d stops ⟨[], []⟩ (offset + 2 + name.length)
      (':' :: z) Q) :
    Q (parse d offset stops .data) := by
  have hfree (x : Char) (hx : Statement.isNameChar x = false) : x ∉ name := fun hmem =>
    Bool.false_ne_true (hx.symm.trans (hname.2 x hmem))
  have hjoints : ∀ x ∈ joints, Statement.isNameChar x = false := by decide
  have hplain : Part.Plain ⟨b, 0, .name (d.locAt offset), []⟩ name := by
    refine Part.plain_name_iff.2 ⟨hfree _ (by decide), hfree _ ?_, hfree _ ?_, hfree _ (by decide)⟩
    · cases b <;> decide
    · cases b <;> decide
  rw [parse_eq_resume hcovers, hrest]
  refine Part.Reads.enterName
    ((callAfter?_append_iff border_colon name z).2 (callAfter?_eq_none hname.isBlank)) ?_
  exact Part.Reads.plain hplain (.inl fun x hx hj => hfree x (hjoints x hj) hx) h

end Reading

/-- **A substitution reference is read as written** where its colon and its equals sign stand by
themselves. A colon before a slash belongs to the name of the variable. -/
theorem parse_substitution (d : Line) (offset : Nat) (b : Brace) (name pattern replacement : Text)
    (hcovers : d.covers offset = true) (hrest : d.rest offset =
      '$' :: b.opening :: (name ++ ':' :: (pattern ++ '=' :: (replacement ++ [b.closing]))))
    (hname : Statement.IsName name) (hequals : '=' ∉ pattern) (hslash : '\\' ∉ pattern)
    (hplain : ∀ c ∈ [b.opening, b.closing, '$'], c ∉ pattern ++ replacement) :
    (pattern ≠ [] → pattern.head? ≠ some ':' → pattern.head? ≠ some '/' →
      Text.LeavesEquals pattern →
      parse d offset [] .data =
      pure ⟨.sequence [.ref (.substitution (some (d.locAt offset)) (.literal name none)
        (.literal pattern none) (.literal replacement none))] (some d.loc), none⟩) ∧
    (pattern.head? = some '/' → Refers d (name ++ [':', '/']) (parse d offset [] .data)) := by
  constructor
  · intro hne hcolon hhead hleaves
    refine enters_name (Q := (· = _)) hcovers hrest hname ?_
    cases pattern with
    | nil => cases hne rfl
    | cons x pattern =>
      have hx : x ∉ ['=', ':', '/', '\\'] := by
        simp only [mem_cons, not_mem_nil, or_false, not_or]
        exact ⟨fun hx => hequals (hx ▸ mem_cons_self), fun hx => hcolon (hx ▸ rfl),
          fun hx => hhead (hx ▸ rfl),
          fun hx => hslash (hx ▸ mem_cons_self)⟩
      exact reads_colon hx hplain hequals hleaves
  · intro hhead
    refine enters_name hcovers hrest hname ?_
    cases pattern with
    | nil => cases hhead
    | cons x pattern =>
      cases hhead
      have htext : '/' :: pattern ++ '=' :: (replacement ++ [b.closing]) =
          '/' :: ((pattern ++ '=' :: replacement) ++ [b.closing]) := by simp
      rw [htext]
      -- neither the colon nor the slash is a token, so both are gathered
      refine Part.Reads.char rfl (Part.Reads.char (match?_eq_none (by decide) _) ?_)
      refine Part.Names.reads ?_ rfl ?_
      · show name ++ [':', '/'] <+: name ++ [':'] ++ ['/']
        simp
      · intro c hc hmem
        have hbase : '=' ∉ [b.opening, b.closing, '$'] := by cases b <;> decide
        have hne : c ≠ '=' := fun hc' => hbase (hc' ▸ hc)
        have hno := hplain c hc
        simp only [mem_append, mem_cons, not_or] at hno hmem
        tauto

/-- A pattern with colons in it, and a path with a colon in the name of the variable. -/
theorem parse_substitution_examples :
    parse (Line.ofText "$(a_1:.c::=:x=y)" "f") 0
      [] .data = pure ⟨.sequence [.ref (.substitution (some ⟨"f", 1, 0⟩)
      (.literal "a_1" none) (.literal ".c::" none) (.literal ":x=y" none))] (some ⟨"f", 1, 0⟩),
      none⟩ ∧
    Refers (Line.ofText "$(c:/x:y=z)" "f") "c:/"
      (parse (Line.ofText "$(c:/x:y=z)" "f") 0 [] .data) :=
  ⟨(parse_substitution _ 0 .round "a_1" ".c::" ":x=y" (by decide) (by decide)
    ⟨by decide, by decide⟩ (by decide)
      (by decide) (by decide)).1 (by decide) (by decide) (by decide)
        ⟨by decide, by decide, by decide⟩,
    (parse_substitution _ 0 .round "c" "/x:y" "z" (by decide) (by decide)
      ⟨by decide, by decide⟩ (by decide)
      (by decide) (by decide)).2 (by decide)⟩

/-- A colon before a slash belongs to the name, and so does an assignment sign. -/
theorem parse_not_substitution :
    parse (Line.ofText "$(a:/x=y)" "f") 0 [] .data =
      pure ⟨.sequence [.ref (.variable (some ⟨"f", 1, 0⟩) (.literal "a:/x=y" none))]
        (some ⟨"f", 1, 0⟩), none⟩ ∧
    parse (Line.ofText "$(a:=.c)" "f") 0 [] .data =
      pure ⟨.sequence [.ref (.variable (some ⟨"f", 1, 0⟩) (.literal "a:=.c" none))]
        (some ⟨"f", 1, 0⟩), none⟩ := by
  have hname : Statement.IsName "a" := ⟨by decide, by decide⟩
  constructor
  · refine enters_name (b := .round) (z := "/x=y)") (Q := (· = _)) rfl rfl hname
      (Part.Reads.char rfl ?_)
    exact Part.Reads.plain (w := "/x=y") (z := [')']) (Part.plain_name_iff.2 (by decide))
      (.inr (by decide))
      (Part.reads_variable ⟨rfl, rfl⟩)
  · refine enters_name (b := .round) (z := "=.c)") (Q := (· = _)) rfl rfl hname ?_
    refine Part.Reads.token (t := .mark [':', '=']) (s := ".c)") rfl rfl (by decide) ?_
    exact Part.Reads.plain (w := ".c") (z := [')']) (Part.plain_name_iff.2 (by decide))
      (.inr (by decide))
      (Part.reads_variable ⟨rfl, rfl⟩)

end Expansion

end Rebuild
