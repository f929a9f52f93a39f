import Rebuild.Proofs.Expansion.Marks
/-!
# Reading inside of references

Inside of an open reference, text is gathered in pieces: the reader holds items, and characters
since the last token. What counts is their joined text. A `Part` is what is known about the
innermost open reference while its current part has no reference, and `Part.Reads` says what holds
of reading a text from every state that fits the part. The lemmas take a text apart from the front:
characters and marks that do not matter are added to the text of the part, parentheses inside the
reference are counted, and a mark that the part waits for ends it.
-/

namespace Rebuild

open List Token Item

namespace Expansion

open Reader

/-- What is known about an open reference while the current part of it is text. -/
structure Part where
  brace : Brace
  /-- How many parentheses are open inside it. -/
  nested : Nat
  role : Role
  /-- The text of the current part. -/
  text : Text

namespace Part

variable {p : Part} {d : Line} {stops : List Text} {st : Reader} {offset : Nat}
  {s before : Text} {c : Char}
  {t : Token} {Q : ParseM Read → Prop} {f : Frame} {fresh : Bool} {w : Text} {loc : Location}
  {fn : Builtin} {b : Brace}

/-- The reference is open, and the items that it has gathered and the characters since the last
token are the text of the part. -/
structure Fits (p : Part) (f : Frame) (before : Text) : Prop where
  brace : f.brace = p.brace
  nested : f.nested = p.nested
  role : f.role = p.role
  plain : hasRef f.gathered = false
  text : textOf f.gathered.reverse ++ before.reverse = p.text

/-- The marks that matter in the part. -/
def tokens (p : Part) : List Text := Frame.tokens ⟨p.brace, p.nested, [], p.role⟩

/-- Reading a text as plain data in the part, inside of a reference that is open in a state, does
what is said whatever the state is in detail. -/
def Reads (p : Part) (d : Line) (stops : List Text) (st : Reader) (offset : Nat) (s : Text)
    (Q : ParseM Read → Prop) : Prop :=
  ∀ fresh f before, p.Fits f before →
    Q (resume d .data stops fresh { st with frames := f :: st.frames } before offset s)

/-- The part with more text. -/
def push (p : Part) (s : Text) : Part := { p with text := p.text ++ s }

theorem Fits.tokens (h : p.Fits f before) : f.tokens = p.tokens := by
  unfold Part.tokens Frame.tokens
  rw [h.brace, h.nested, h.role]

theorem Fits.items (h : p.Fits f []) : ofItems f.gathered.reverse none = .literal p.text none := by
  have htext : textOf f.gathered.reverse = p.text := by simpa using h.text
  rw [ofItems_eq_literal (by simpa [hasRef] using h.plain), htext]

/-- Text that is gathered stays the text of the part. -/
theorem Fits.addText (h : p.Fits f before) (st : Reader) (s : Text) : ∃ g, (p.push s).Fits g [] ∧
    addText { st with frames := f :: st.frames } (before.reverse ++ s) =
      { st with frames := g :: st.frames } := by
  by_cases hs : before.reverse ++ s = []
  · refine ⟨f, ⟨h.brace, h.nested, h.role, h.plain, ?_⟩, if_pos (List.isEmpty_iff.2 hs)⟩
    show _ = p.text ++ s
    rw [← h.text, append_assoc, hs]
    rfl
  · refine ⟨{ f with gathered := .text (before.reverse ++ s) :: f.gathered },
      ⟨h.brace, h.nested, h.role, h.plain, ?_⟩, ?_⟩
    · show _ = p.text ++ s
      rw [← h.text]
      simp [textOf]
    · unfold Reader.addText
      rw [if_neg (mt List.isEmpty_iff.1 hs)]
      rfl

theorem Fits.paren (h : p.Fits f []) (n : Nat) (c : Char) :
    Fits { p with nested := n, text := p.text ++ [c] } ⟨p.brace, n, .text [c] :: f.gathered, f.role⟩
      [] := by
  refine ⟨rfl, rfl, h.role, h.plain, ?_⟩
  have htext := h.text
  rw [← htext]
  simp [textOf]

/-! ## Text -/

theorem Reads.char (hc : match? (c :: s) = none)
    (h : (p.push [c]).Reads d stops st (offset + 1) s Q) :
    p.Reads d stops st offset (c :: s) Q := by
  intro fresh f before hf
  rw [resume_shift hc]
  refine h fresh f (c :: before) ⟨hf.brace, hf.nested, hf.role, hf.plain, ?_⟩
  show _ = p.text ++ [c]
  rw [← hf.text]
  simp

/-- Characters that begin no token are text. -/
theorem Reads.inert (hw : ∀ c ∈ w, c ∉ starts)
    (h : (p.push w).Reads d stops st (offset + w.length) s Q) :
    p.Reads d stops st offset (w ++ s) Q := by
  intro fresh f before hf
  rw [resume_inert hw]
  exact h fresh f _ ⟨hf.brace, hf.nested, hf.role, hf.plain, by simp [push, ← hf.text]⟩

theorem Reads.token (ht : match? (t.text ++ s) = some t) (href : t.isReference = false)
    (hno : t.text ∉ p.tokens) (h : (p.push t.text).Reads d stops st (offset + t.text.length) s Q) :
    p.Reads d stops st offset (t.text ++ s) Q := by
  intro fresh f before hf
  obtain ⟨g, hg, hadd⟩ := hf.addText st t.text
  have hskip : t.text ∉ Reader.tokens { st with frames := f :: st.frames } stops :=
    fun hmem => hno (hf.tokens ▸ hmem)
  rw [resume_skipped ht href hskip, hadd]
  exact h false g [] hg

/-- **A stretch is read as text** up to a border, if something that holds of what is left of it
makes sure that tokens do not cross the border and do not matter. -/
theorem Reads.stretch {z : Text} {P : Text → Prop}
    (hchar : ∀ c s, P (c :: s) → match? (c :: s ++ z) = none → P s)
    (htoken : ∀ c s t, P (c :: s) → match? (c :: s ++ z) = some t →
      t.isReference = false ∧ t.text ∉ p.tokens ∧ ∃ rest, c :: s = t.text ++ rest ∧ P rest)
    (hw : P w) (h : (p.push w).Reads d stops st (offset + w.length) z Q) :
    p.Reads d stops st offset (w ++ z) Q := by
  induction w using pieces_induction generalizing p offset with
  | nil => simpa [push] using h
  | cons c s ih =>
    have hpush (u v : Text) : (p.push u).push v = p.push (u ++ v) := by simp [push]
    have hgoes {u v : Text} (hs : c :: s = u ++ v) :
        ((p.push u).push v).Reads d stops st (offset + u.length + v.length) z Q := by
      rwa [hpush, Nat.add_assoc, ← length_append, ← hs]
    cases ht : match? (c :: s ++ z) with
    | none =>
      exact Reads.char ht (ih [c] s rfl (cons_ne_nil _ _) htoken (hchar c s hw ht) (hgoes rfl))
    | some t =>
      obtain ⟨href, hno, rest, hrest, hP⟩ := htoken c s t hw ht
      have hnext := ih (p := p.push t.text) t.text rest hrest (text_ne_nil_of_match? ht) htoken hP
        (hgoes hrest)
      rw [hrest, append_assoc] at ht ⊢
      exact Reads.token ht href hno hnext

/-! ## Marks that matter -/

theorem mem_tokens : w ∈ p.tokens ↔
    w ∈ [[p.brace.opening], [p.brace.closing], ['$']] ∨ p.nested = 0 ∧ w ∈ p.role.marks :=
  Frame.mem_tokens

/-- A mark that matters is taken up once all text is gathered. -/
theorem Reads.mark (ht : match? (w ++ s) = some (.mark w)) (hw : w ∈ p.tokens)
    (h : ∀ g, p.Fits g [] → Q (mark { st with frames := g :: st.frames } g w >>= fun st' =>
      resume d .data stops true st' [] (offset + w.length) s)) :
    p.Reads d stops st offset (w ++ s) Q := by
  intro fresh f before hf
  obtain ⟨g, hg, hadd⟩ := hf.addText st []
  rw [show p.push [] = p by simp [push]] at hg
  rw [append_nil] at hadd
  rw [← hg.tokens] at hw
  rw [resume_mark (by rw [hadd]) ht hw, hadd]
  exact h g hg

/-- A parenthesis is opened inside the reference. -/
theorem Reads.opening
    (h : Reads { p with nested := p.nested + 1, text := p.text ++ [p.brace.opening] } d stops st
      (offset + 1) s Q) :
    p.Reads d stops st offset (p.brace.opening :: s) Q := by
  refine Reads.mark (match?_opening p.brace s) (mem_tokens.2 (.inl (by simp))) fun g hg => ?_
  have hmark := mark_opening { st with frames := g :: st.frames } g
  rw [hg.brace, hg.nested] at hmark
  rw [hmark, pure_bind]
  exact h true _ [] (hg.paren _ _)

/-- A parenthesis is closed that was opened inside the reference. -/
theorem Reads.inner {n : Nat} (hn : p.nested = n + 1)
    (h : Reads { p with nested := n, text := p.text ++ [p.brace.closing] } d stops st
      (offset + 1) s Q) :
    p.Reads d stops st offset (p.brace.closing :: s) Q := by
  refine Reads.mark (match?_closing p.brace s) (mem_tokens.2 (.inl (by simp))) fun g hg => ?_
  have hmark := @mark_inner { st with frames := g :: st.frames } g n (hg.nested.trans hn)
  rw [hg.brace] at hmark
  rw [hmark, pure_bind]
  exact h true _ [] (hg.paren _ _)

/-- The parenthesis closes the reference. -/
theorem Reads.closing (hn : p.nested = 0) (h : ∀ g, p.Fits g [] →
      Q (close { st with frames := g :: st.frames } g >>= fun st' =>
        resume d .data stops true st' [] (offset + 1) s)) :
    p.Reads d stops st offset (p.brace.closing :: s) Q := by
  refine Reads.mark (match?_closing p.brace s) (mem_tokens.2 (.inl (by simp))) fun g hg => ?_
  rw [← hg.brace, mark_closing (hg.nested.trans hn)]
  exact h g hg

/-- The mark that the part waits for ends it, and the next part begins. -/
theorem Reads.awaited (hn : p.nested = 0) (hc : [c] ∈ p.role.marks)
    (ht : match? (c :: s) = some (.mark [c]))
    (h : ∀ items, hasRef items = false → textOf items = p.text →
      Reads ⟨p.brace, 0, p.role.next items, []⟩ d stops st (offset + 1) s Q) :
    p.Reads d stops st offset (c :: s) Q := by
  refine Reads.mark ht (mem_tokens.2 (.inr ⟨hn, hc⟩)) fun g hg => ?_
  rw [mark_awaited (hg.nested.trans hn) (hg.role ▸ hc), pure_bind, hg.role]
  refine h g.gathered.reverse ?_ ?_ true _ [] ⟨hg.brace, hg.nested.trans hn, rfl, rfl, rfl⟩
  · simpa [hasRef] using hg.plain
  · simpa using hg.text

theorem match?_comma (s : Text) : match? (',' :: s) = some (.mark [',']) := rfl

theorem match?_equals (s : Text) : match? ('=' :: s) = some (.mark ['=']) := rfl

/-! ## Coming in and out -/

theorem Reads.enter {role : Role} (h : Reads ⟨b, 0, role, []⟩ d stops st offset s Q) :
    Q (resume d .data stops true (st.enter b role) [] offset s) :=
  h true ⟨b, 0, [], role⟩ [] ⟨rfl, rfl, rfl, rfl, rfl⟩

theorem Reads.enterCall {blanks : Text}
    (ht : match? ((call b fn blanks).text ++ s) = some (.call b fn blanks))
    (h : Reads ⟨b, 0, .call (d.locAt offset) fn [], []⟩ d stops (st.addText before.reverse)
      (offset + (call b fn blanks).text.length) s Q) :
    Q (resume d .data stops fresh st before offset ((call b fn blanks).text ++ s)) := by
  rw [resume_call ht]
  exact h.enter

theorem Reads.enterName (hs : callAfter? s = none)
    (h : Reads ⟨b, 0, .name (d.locAt offset), []⟩ d stops (st.addText before.reverse)
      (offset + 2) s Q) :
    Q (resume d .data stops fresh st before offset ('$' :: b.opening :: s)) := by
  rw [resume_reference (match?_reference_iff.2 hs)]
  cases b <;> exact h.enter

theorem Fits.close_name (h : p.Fits f []) (hrole : p.role = .name loc) (st : Reader) :
    close { st with frames := f :: st.frames } f =
      pure (st.add (.ref (.variable (some loc) (.literal p.text none)))) := by
  unfold close
  rw [h.role, hrole]
  dsimp only
  rw [h.items]
  rfl

theorem merge_append_ref {xs : List Item} (h : hasRef xs = false) (r : Reference) :
    merge (xs ++ [.ref r]) = ofText (textOf xs) ++ [.ref r] := by
  induction xs with
  | nil => rfl
  | cons x xs ih =>
    cases x with
    | ref r => cases h
    | text t =>
      rw [cons_append, Item.merge, ih h]
      have htext : Item.textOf (.text t :: xs) = t ++ Item.textOf xs := rfl
      rw [htext]
      unfold ofText
      by_cases hxs : textOf xs = []
      · by_cases ht : t = [] <;> simp [hxs, ht]
      · simp [hxs]

theorem resume_ref (h : st.Plain) (r : Reference) (offset : Nat) :
    resume d .data stops true (st.add (.ref r)) [] offset [] =
      pure ⟨.sequence (ofText st.written ++ [.ref r]) (some d.loc), none⟩ := by
  have hplain : hasRef st.outer.reverse = false := by simpa [hasRef] using h.hasRef
  have hadd : st.add (.ref r) = ⟨.ref r :: st.outer, []⟩ := by
    unfold Reader.add
    rw [h.frames]
  unfold resume
  rw [Lexeme.scan, readLexemes, hadd, Reader.written, ← merge_append_ref hplain]
  simp [Reader.finish, ofItems, hasRef]

theorem reads_variable {name : Text} (h : st.Plain) :
    Reads ⟨b, 0, .name loc, name⟩ d stops st offset [b.closing]
      (· = pure ⟨.sequence (ofText st.written ++
      [.ref (.variable (some loc) (.literal name none))]) (some d.loc), none⟩) := by
  refine Reads.closing rfl fun g hg => ?_
  rw [hg.close_name rfl, pure_bind]
  exact resume_ref h _ _

end Part

/-- **Text and a reference at its end are read as these two.** -/
theorem parseText_variable {b : Brace} {s name : Text} (hs : '$' ∉ s)
    (hname : ∀ c ∈ name, Token.Inert c)
    (path : Text) :
    ∃ l loc, parseText (s ++ '$' :: b.opening :: (name ++ [b.closing])) path =
      pure (.sequence (ofText s ++ [.ref (.variable l (.literal name none))]) loc) := by
  have hesc := escapeDollars_eq_self hs
  have hfree : callAfter? (name ++ [b.closing]) = none :=
    (callAfter?_append_iff (border_closing b) name []).2
      (callAfter?_eq_none fun c hc => (hname c hc).2)
  obtain ⟨fresh', st', before', h', hw', he⟩ := @resume_append
    (Line.ofText (s ++ '$' :: b.opening :: (name ++ [b.closing])) path) .data [] true ⟨[], []⟩ [] s
    ('$' :: b.opening :: (name ++ [b.closing])) 0 (.inl (.inl rfl)) (by simp)
      (.inr (by simp; decide)) ⟨rfl, rfl⟩
  rw [hesc] at he
  obtain ⟨h1, hw1⟩ := h'.addText before'.reverse
  have hitems : (st'.addText before'.reverse).written = s := hw1.trans hw'
  have hread := he.trans (Part.Reads.enterName (Q := (· = _)) hfree
    (Part.Reads.inert (fun c hc => (hname c hc).1) (Part.reads_variable h1)))
  rw [hitems] at hread
  have hparse : parse (Line.ofText (s ++ '$' :: b.opening :: (name ++ [b.closing])) path) 0
      [] .data = _ :=
    (parse_eq_resume rfl).trans hread
  unfold parseText
  rw [hparse, pure_bind]
  exact ⟨_, _, rfl⟩

end Expansion

end Rebuild
