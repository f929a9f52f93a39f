import Rebuild.Expansion.Parser
import Rebuild.Expansion.Source
import Rebuild.Proofs.Token
/-!
# Reading text that has no references

The reader of expansions works on lexemes. Read from the text itself (`resume`), it goes on by one
character where no token begins and by one token where one does. So a stretch in which no token
matters is gathered as it stands, but for flattening, and a dollar sign written twice is gathered
once (`resume_append`). What is read is then a literal, up to the first token that was asked for
(`parse_found`) or to the end (`parse_ended`).
-/

namespace Rebuild

open List Token Mode

variable {w : Text}

/-! ## Dollar signs written twice -/

theorem escapeDollars_append (s z : Text) :
    escapeDollars (s ++ z) = escapeDollars s ++ escapeDollars z := by
  simp [escapeDollars]

theorem escapeDollars_eq_self {s : Text} (h : '$' ∉ s) : escapeDollars s = s := by
  induction s with
  | nil => rfl
  | cons c s ih =>
    have hc : c ≠ '$' := fun hc => h (hc ▸ mem_cons_self)
    have hs := ih fun hs => h (mem_cons_of_mem _ hs)
    simp_all [escapeDollars]

/-- A start without dollar signs is not changed. -/
theorem exists_of_escapeDollars_eq {s u : Text} (hu : '$' ∉ u) (h : escapeDollars s = u ++ w) :
    ∃ v, s = u ++ v ∧ w = escapeDollars v := by
  induction u generalizing s with
  | nil => exact ⟨s, rfl, h.symm⟩
  | cons a u ih =>
    have ha : a ≠ '$' := fun ha => hu (ha ▸ mem_cons_self)
    cases s with
    | nil => simp [escapeDollars] at h
    | cons c s =>
      have hc : c ≠ '$' := by
        rintro rfl
        simp [escapeDollars] at h
        exact ha h.1.symm
      have hcons : escapeDollars (c :: s) = c :: escapeDollars s := by simp [escapeDollars, hc]
      rw [hcons, cons_append] at h
      obtain ⟨rfl, htail⟩ := List.cons.inj h
      obtain ⟨v, rfl, rfl⟩ := ih (fun hm => hu (mem_cons_of_mem _ hm)) htail
      exact ⟨v, rfl, rfl⟩

namespace Mode

/-- Flattening goes piece by piece at a character. -/
def PassesAt (m : Mode) (c : Char) : Prop := ∀ x y, m.flat (x ++ c :: y) = m.flat x ++ c :: m.flat y

theorem passesAt_data (c : Char) : data.PassesAt c := fun _ _ => rfl

theorem passesAt_makefile {b : Bool} {c : Char} (hb : Text.isBlank c = false) (hs : c ≠ '\\') :
    (makefile b).PassesAt c := Line.condense_append_cons hb hs

theorem passesAt_command {c : Char} (hn : c ≠ '\n') (ht : c ≠ '\t') : command.PassesAt c := by
  intro x y
  show Line.untab (x ++ c :: y) = Line.untab x ++ c :: Line.untab y
  rw [Line.untab_append ht, Line.untab]
  rintro _ rfl
  cases hn rfl

/-- What a token is that ends in no hash sign. -/
theorem read_of_hash? {t : Token} (h : hash? t = none) (m : Mode) (tokens : List Text)
    (w : Text) (o : Nat) :
    m.read tokens ⟨w, t, o⟩ = if wants tokens t then .found (m.flat w) else .plain
      (m.flat w ++ t.text) := by
  cases m with
  | makefile b => cases b <;> simp [read, h]
  | data | command => rfl

theorem flat_nil (m : Mode) : m.flat [] = [] := by
  cases m
  · rfl
  · exact Line.condense_eq_self (by simp)
  · rfl

/-- Flattening goes piece by piece at a token. -/
theorem flat_append {m : Mode} {t : Text} (ht : t ≠ []) (h : ∀ c ∈ t, m.PassesAt c) (x y : Text) :
    m.flat (x ++ (t ++ y)) = m.flat x ++ t ++ m.flat y := by
  induction t generalizing x with
  | nil => cases ht rfl
  | cons c t ih =>
    have htail : m.flat (t ++ y) = t ++ m.flat y := by
      cases t with
      | nil => rfl
      | cons b t =>
        simpa [flat_nil] using ih (by simp) (fun c hc => h c (mem_cons_of_mem _ hc)) []
    rw [cons_append, h c mem_cons_self, htail]
    simp

end Mode

namespace Expansion

variable {d : Line} {m : Mode} {stops : List Text} {fresh : Bool} {st : Reader}
  {before s z : Text} {offset : Nat} {c : Char} {t : Token}

/-! ## The reader outside of references -/

/-- Only text was gathered, and no reference is open. -/
structure Reader.Plain (st : Reader) : Prop where
  frames : st.frames = []
  hasRef : Item.hasRef st.outer = false

/-- The text that was gathered. -/
def Reader.written (st : Reader) : Text := Item.textOf st.outer.reverse

theorem Reader.Plain.addText (h : st.Plain) (s : Text) :
    (st.addText s).Plain ∧ (st.addText s).written = st.written ++ s := by
  obtain ⟨hf, hr⟩ := h
  unfold Reader.addText
  split
  · rename_i hs
    rw [List.isEmpty_iff.1 hs, append_nil]
    exact ⟨⟨hf, hr⟩, rfl⟩
  · unfold Reader.add
    rw [hf]
    refine ⟨⟨rfl, ?_⟩, ?_⟩
    · simpa [Item.hasRef] using hr
    · simp [Reader.written, Item.textOf]

theorem ofItems_eq_literal {items : List Item} (h : Item.hasRef items = false)
    (loc : Option Location) :
    ofItems items loc = .literal (Item.textOf items) loc := by
  unfold ofItems
  rw [h]
  rfl

theorem Reader.Plain.ofItems (h : st.Plain) (loc : Option Location) :
    ofItems st.outer.reverse loc = .literal st.written loc :=
  ofItems_eq_literal (by simpa [Item.hasRef] using h.hasRef) loc

theorem Reader.Plain.finish (h : st.Plain) (located : Bool) :
    st.finish d located = pure ⟨.literal st.written (some d.loc), none⟩ := by
  unfold Reader.finish
  rw [h.frames, h.ofItems]
  rfl

theorem Reader.Plain.mode (h : st.Plain) (m : Mode) : st.mode m = m := by
  unfold Reader.mode
  rw [h.frames]
  simp

/-! ## Reading from the text -/

/-- Go on reading at a text; `before` holds the characters since the last token, the latest
first. -/
def resume (d : Line) (m : Mode) (stops : List Text) (fresh : Bool) (st : Reader) (before : Text)
    (offset : Nat) (s : Text) : ParseM Read :=
  readLexemes d m stops (Lexeme.scan before offset s).2 fresh st (Lexeme.scan before offset s).1

theorem parse_eq_resume (h : d.covers offset = true) :
    parse d offset stops m = resume d m stops true ⟨[], []⟩ [] offset (d.rest offset) := by
  unfold parse
  rw [if_pos h]
  rfl

/-- At the end of the text, what was gathered is the result. -/
theorem resume_nil (h : st.Plain) :
    resume d m stops fresh st before offset [] =
      pure ⟨.literal (st.written ++ m.flat before.reverse) (some d.loc), none⟩ := by
  unfold resume
  rw [Lexeme.scan, readLexemes]
  split
  · rename_i he
    have hb : before = [] := by simpa using (Bool.and_eq_true_iff.1 he).2
    rw [h.finish, hb, reverse_nil, flat_nil, append_nil]
  · obtain ⟨hplain, hwritten⟩ := h.addText (m.flat before.reverse)
    rw [h.mode, hplain.finish, hwritten]

/-- Where no token begins, a character is read. -/
theorem resume_shift (h : match? (c :: s) = none) :
    resume d m stops fresh st before offset (c :: s) =
      resume d m stops fresh st (c :: before) (offset + 1) s := by
  unfold resume
  rw [Lexeme.scan]
  simp only [h]

/-- Characters that begin no token are gathered. -/
theorem resume_inert (hw : ∀ c ∈ w, c ∉ starts) :
    resume d m stops fresh st before offset (w ++ z) =
      resume d m stops fresh st (w.reverse ++ before) (offset + w.length) z := by
  induction w generalizing before offset with
  | nil => rfl
  | cons c w ih =>
    rw [cons_append, resume_shift (match?_eq_none (hw c mem_cons_self) _),
      ih fun c hc => hw c (mem_cons_of_mem _ hc)]
    simp [Nat.add_assoc, Nat.add_comm 1]

/-- Where a token begins, it is read. -/
theorem scan_token (h : match? (t.text ++ s) = some t) :
    Lexeme.scan before offset (t.text ++ s) =
      (⟨before.reverse, t, offset⟩ :: (Lexeme.scan [] (offset + t.text.length) s).1,
        (Lexeme.scan [] (offset + t.text.length) s).2) := by
  obtain ⟨c, w, hw⟩ := exists_cons_of_ne_nil (text_ne_nil_of_match? h)
  have hrest : (w ++ s).drop (t.text.length - 1) = s := by simp [hw]
  rw [hw, cons_append] at h ⊢
  rw [Lexeme.scan]
  simp only [h, hrest]
  simp [hw]

theorem resume_plain (h : st.Plain) (ht : match? (t.text ++ s) = some t) {text : Text}
    (hread : m.read (st.tokens stops) ⟨before.reverse, t, offset⟩ = .plain text) :
    resume d m stops fresh st before offset (t.text ++ s) =
      resume d m stops false (st.addText text) [] (offset + t.text.length) s := by
  unfold resume
  rw [scan_token ht, readLexemes, h.mode, hread]

/-- A dollar sign written twice is one. -/
theorem resume_dollar (h : st.Plain) :
    resume d m stops fresh st before offset ('$' :: '$' :: s) =
      resume d m stops true ((st.addText (m.flat before.reverse)).addText ['$']) []
        (offset + 2) s := by
  have ht : match? ((reference '$').text ++ s) = some (.reference '$') := rfl
  have hread : m.read (st.tokens stops) ⟨before.reverse, .reference '$', offset⟩
      = .found (m.flat before.reverse) := by
    rw [read_of_hash? rfl, if_pos (by simp [wants, Reader.tokens, h.frames, isReference])]
  show resume d m stops fresh st before offset ((reference '$').text ++ s) = _
  unfold resume
  rw [scan_token ht, readLexemes, h.mode, hread]
  rfl

/-- A token that was asked for ends the reading. -/
theorem resume_found (h : st.Plain) (ht : match? (t.text ++ s) = some t)
    (hmark : t = .mark w) (hw : w ∈ stops) (hopen : w ≠ ['('] ∧ w ≠ ['\x7b']) :
    resume d m stops fresh st before offset (t.text ++ s) =
      pure ⟨.literal (st.written ++ m.flat before.reverse) (some d.loc),
        some (t, offset + t.text.length)⟩ := by
  subst hmark
  have hread : m.read (st.tokens stops) ⟨before.reverse, .mark w, offset⟩
      = .found (m.flat before.reverse) := by
    rw [read_of_hash? rfl, if_pos (by simp [wants, Reader.tokens, h.frames, text, hw])]
  obtain ⟨hplain, hwritten⟩ := h.addText (m.flat before.reverse)
  unfold resume
  rw [scan_token ht, readLexemes, h.mode, hread]
  dsimp only
  rw [hplain.frames]
  rw [if_neg, hplain.ofItems, hwritten]
  · rfl
  · simpa [text] using hopen

/-! ## Stretches of text -/

/-- How a stretch of text can be read so that none of its hash signs is a comment. -/
def Quiet (m : Mode) (s : Text) : Prop := (m = .data ∨ m = .command) ∨ m = .makefile true ∧ '#' ∉ s

theorem Quiet.of_append (h : Quiet m (w ++ s)) : Quiet m s :=
  h.imp_right fun hs => ⟨hs.1, fun hmem => hs.2 (mem_append_right w hmem)⟩

/-- A token of a quiet stretch that does not begin with a dollar sign is plain text, unless it was
asked for, and flattening goes piece by piece there. -/
theorem Quiet.token (hm : Quiet m (t.text ++ s)) (ht : match? z = some t)
    (hz : z.head? ≠ some '$') (hstops : t.text ∉ stops) (h : st.Plain) (before : Text)
    (offset : Nat) :
    (∀ c ∈ t.text, m.PassesAt c) ∧
      m.read (st.tokens stops) ⟨before.reverse, t, offset⟩ =
      .plain (m.flat before.reverse ++ t.text) := by
  have hwants : t.isReference = false → wants (st.tokens stops) t = false := by
    intro href
    have hne : t.text ≠ ['$'] := fun he =>
      dollar_not_mem ht hz (he ▸ mem_singleton_self _)
    simp [wants, Reader.tokens, h.frames, href, hstops, hne]
  obtain ⟨n, rfl⟩ | ⟨w, hw, rfl⟩ := hash_or_mark ht hz
  · -- a hash sign is text in data and in a recipe
    rcases hm with (rfl | rfl) | ⟨-, hm⟩
    · exact ⟨fun c _ => Mode.passesAt_data c, by simp [Mode.read, hwants rfl]⟩
    · refine ⟨fun c hc => ?_, by simp [Mode.read, hwants rfl]⟩
      rcases mem_text_hash hc with rfl | rfl <;>
        exact passesAt_command (by decide) (by decide)
    · exact absurd (by simp [text]) hm
  · have hmarks : ∀ w ∈ marks, ∀ c ∈ w, Text.isBlank c = false ∧ c ≠ '\\' ∧
        c ≠ '\n' ∧ c ≠ '\t' := by decide
    refine ⟨fun c hc => ?_, by rw [read_of_hash? rfl, hwants rfl]; rfl⟩
    obtain ⟨hblank, hslash, hnewline, htab⟩ := hmarks w hw c hc
    rcases hm with (rfl | rfl) | ⟨rfl, -⟩
    · exact passesAt_data c
    · exact passesAt_command hnewline htab
    · exact passesAt_makefile hblank hslash

theorem mem_escapeDollars {x : Char} : x ∈ escapeDollars s ↔ x ∈ s := by
  induction s with
  | nil => rfl
  | cons c s ih =>
    have hcons : escapeDollars (c :: s) = escapeDollars [c] ++ escapeDollars s :=
      escapeDollars_append [c] s
    have hc : x ∈ escapeDollars [c] ↔ x = c := by
      by_cases hc : c = '$' <;> simp [escapeDollars, hc]
    rw [hcons, mem_append, hc, ih, mem_cons]

/-- **A stretch in which no token matters is gathered as it stands**, but for flattening, and with
every dollar sign written once. -/
theorem resume_append (hm : Quiet m s) (hstops : ∀ w ∈ stops, ∃ x ∈ w, x ∉ s) (hz : Token.Apart s z)
    (h : st.Plain) :
    ∃ fresh' st' before', st'.Plain ∧
      st'.written ++ m.flat before'.reverse = st.written ++ m.flat (before.reverse ++ s) ∧
      resume d m stops fresh st before offset (escapeDollars s ++ z) =
        resume d m stops fresh' st' before' (offset + (escapeDollars s).length) z := by
  induction s using pieces_induction generalizing fresh st before offset with
  | nil => exact ⟨fresh, st, before, h, by simp, rfl⟩
  | cons c s ih =>
    have hstops' : ∀ w v, c :: s = w ++ v → ∀ t ∈ stops, ∃ x ∈ t, x ∉ v := by
      intro w v hs t ht
      obtain ⟨x, hx, hxs⟩ := hstops t ht
      exact ⟨x, hx, fun hv => hxs (hs ▸ mem_append_right w hv)⟩
    by_cases hc : c = '$'
    · subst hc
      obtain ⟨h1, hw1⟩ := h.addText (m.flat before.reverse)
      obtain ⟨h2, hw2⟩ := h1.addText ['$']
      have hpass : m.PassesAt '$' := by
        rcases hm with (rfl | rfl) | ⟨rfl, -⟩
        · exact passesAt_data _
        · exact passesAt_command (by decide) (by decide)
        · exact passesAt_makefile (by decide) (by decide)
      have hesc : escapeDollars ('$' :: s) = '$' :: '$' :: escapeDollars s := rfl
      obtain ⟨fresh', st', before', h', hw', he⟩ :=
        @ih ['$'] s rfl (cons_ne_nil _ _) true _ [] (offset + 2)
        (Quiet.of_append (w := ['$']) hm) (hstops' ['$'] s rfl)
          (Token.Apart.of_append (w := ['$']) hz) h2
      refine ⟨fresh', st', before', h', ?_, ?_⟩
      · rw [hw', hw2, hw1, hpass]
        simp
      · rw [hesc, cons_append, cons_append, resume_dollar h, he]
        simp [Nat.add_assoc, Nat.add_comm 2]
    · have hesc : escapeDollars (c :: s) = c :: escapeDollars s := by simp [escapeDollars, hc]
      rw [hesc]
      cases ht : match? (c :: escapeDollars s ++ z) with
      | none =>
        obtain ⟨fresh', st', before', h', hw', he⟩ :=
          @ih [c] s rfl (cons_ne_nil _ _) fresh _ (c :: before)
          (offset + 1) (Quiet.of_append (w := [c]) hm) (hstops' [c] s rfl)
            (Token.Apart.of_append (w := [c]) hz) h
        refine ⟨fresh', st', before', h', ?_, ?_⟩
        · rw [hw']
          simp
        · rw [cons_append] at ht ⊢
          rw [resume_shift ht, he]
          simp [Nat.add_assoc, Nat.add_comm 1]
      | some t =>
        have hz' : Token.Apart (c :: escapeDollars s) z := by
          rw [← hesc]
          exact hz.imp_left fun hs x hx => hs x (mem_escapeDollars.1 hx)
        have hhead : (c :: escapeDollars s ++ z).head? ≠ some '$' := by simpa using hc
        obtain ⟨rest, hrest⟩ := exists_append_of_apart hz' hc ht
        obtain ⟨v, hv, rfl⟩ :=
          exists_of_escapeDollars_eq (dollar_not_mem ht hhead) (hesc.trans hrest)
        have hne := text_ne_nil_of_match? ht
        have hwanted : t.text ∉ stops := fun hmem => by
          obtain ⟨x, hx, hxs⟩ := hstops _ hmem
          exact hxs (hv ▸ mem_append_left _ hx)
        obtain ⟨hpass, hread⟩ := Quiet.token (hv ▸ hm) ht hhead hwanted h before offset
        obtain ⟨h1, hw1⟩ := h.addText (m.flat before.reverse ++ t.text)
        obtain ⟨fresh', st', before', h', hw', he⟩ :=
          @ih t.text v hv hne false _ [] (offset + t.text.length)
          (Quiet.of_append (hv ▸ hm)) (hstops' _ v hv) (Token.Apart.of_append (hv ▸ hz)) h1
        refine ⟨fresh', st', before', h', ?_, ?_⟩
        · rw [hw', hw1, hv, flat_append hne hpass]
          simp
        · rw [hrest, append_assoc] at ht ⊢
          rw [resume_plain h ht hread, he]
          simp [Nat.add_assoc]

/-- **Text up to a token that was asked for is read as a literal.** -/
theorem parse_found (hcovers : d.covers offset = true)
    (hrest : d.rest offset = escapeDollars s ++ (w ++ z)) (hm : Quiet m s)
    (hstops : ∀ w ∈ stops, ∃ x ∈ w, x ∉ s) (hz : Token.Apart s (w ++ z))
    (ht : match? (w ++ z) = some (.mark w)) (hw : w ∈ stops)
    (hopen : w ≠ ['('] ∧ w ≠ ['\x7b']) :
    parse d offset stops m = pure ⟨.literal (m.flat s) (some d.loc),
      some (.mark w, offset + (escapeDollars s).length + w.length)⟩ := by
  have hstart : (⟨[], []⟩ : Reader).Plain := ⟨rfl, rfl⟩
  obtain ⟨fresh', st', before', h', hw', he⟩ := resume_append hm hstops hz hstart
  rw [parse_eq_resume hcovers, hrest, he]
  exact (resume_found h' ht rfl hw hopen).trans (by rw [hw']; rfl)

/-- **Text to the end is read as a literal.** -/
theorem parse_ended (hcovers : d.covers offset = true) (hrest : d.rest offset = escapeDollars s)
    (hm : Quiet m s) (hstops : ∀ w ∈ stops, ∃ x ∈ w, x ∉ s) :
    parse d offset stops m = pure ⟨.literal (m.flat s) (some d.loc), none⟩ := by
  have hstart : (⟨[], []⟩ : Reader).Plain := ⟨rfl, rfl⟩
  obtain ⟨fresh', st', before', h', hw', he⟩ :=
    resume_append (z := []) hm hstops (.inr (by simp)) hstart
  rw [append_nil] at he
  rw [parse_eq_resume hcovers, hrest, he, resume_nil h', hw']
  rfl

/-! ## All ways to read makefile text -/

/-- Makefile text that is read as it stands. -/
structure Literal (s : Text) : Prop where
  newline : '\n' ∉ s
  dollar : '$' ∉ s
  hash : '#' ∉ s

theorem Literal.flat (h : Literal s) (b : Bool) : (makefile b).flat s = s :=
  Line.condense_eq_self h.newline

theorem Literal.parse_found (h : Literal s) (hcovers : d.covers offset = true)
    (hrest : d.rest offset = s ++ (w ++ z)) (hstops : ∀ w ∈ stops, ∃ x ∈ w, x ∉ s)
    (hz : Token.Apart s (w ++ z)) (ht : match? (w ++ z) = some (.mark w)) (hw : w ∈ stops)
    (hopen : w ≠ ['('] ∧ w ≠ ['\x7b']) :
    parse d offset stops (.makefile true) =
      pure ⟨.literal s (some d.loc), some (.mark w, offset + s.length + w.length)⟩ := by
  have hesc := escapeDollars_eq_self h.dollar
  have hparse := Expansion.parse_found hcovers (by rw [hesc, hrest])
    (.inr ⟨rfl, h.hash⟩) hstops hz ht hw hopen
  rw [hparse, hesc, h.flat]

theorem Literal.parse_ended (h : Literal s) (hcovers : d.covers offset = true)
    (hrest : d.rest offset = s) (hstops : ∀ w ∈ stops, ∃ x ∈ w, x ∉ s) :
    parse d offset stops (.makefile true) = pure ⟨.literal s (some d.loc), none⟩ := by
  have hesc := escapeDollars_eq_self h.dollar
  have hparse := Expansion.parse_ended hcovers (by rw [hesc, hrest])
    (.inr ⟨rfl, h.hash⟩) hstops
  rw [hparse, h.flat]

end Expansion

end Rebuild
