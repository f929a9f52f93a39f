import Rebuild.Proofs.Expansion.Reading
/-!
# Marks inside of references

An open reference asks for its parentheses, for dollar signs, and outside of inner parentheses for
the marks that end its current part (`Frame.mem_tokens`). It takes up each of them in one of four
ways (`Reader.takes_mark`): a parenthesis is opened or closed inside of it, the reference is closed,
or the next part of it begins. Read from the text, a token is gathered, taken up by the innermost
open reference, or opens one more.
-/

namespace Rebuild

open List Token

variable {fn : Builtin} {w s : Text} {t : Token}

/-- The marks that end the argument of a call that comes after `k` others. -/
def Builtin.marks (fn : Builtin) (k : Nat) : List Text := if fn.lastAfter k then [] else [[',']]

namespace Expansion

/-! ## What an open reference asks for -/

namespace Role

/-- The marks that end the current part of an open reference. -/
def marks : Role → List Text
  | .call _ fn args => fn.marks args.length
  | .name _ => [[':']]
  | .pattern .. => [['=']]
  | .replacement .. => []

/-- The role after a part that is complete. -/
def next (part : List Item) : Role → Role
  | .call loc fn args => .call loc fn (ofItems part none :: args)
  | .name loc => .pattern loc part
  | .pattern loc n => .replacement loc n part
  | .replacement loc n p => .replacement loc n p

theorem mem_marks_call {loc : Location} {args : List Expansion} :
    w ∈ (Role.call loc fn args).marks ↔ w = [','] ∧ fn.lastAfter args.length = false := by
  show w ∈ Builtin.marks fn args.length ↔ _
  unfold Builtin.marks
  split <;> simp_all

theorem exists_of_mem_marks {role : Role} (h : w ∈ role.marks) :
    ∃ c ∈ [',', ':', '='], w = [c] := by
  cases role with
  | call loc fn args => exact ⟨',', by simp, (mem_marks_call.1 h).1⟩
  | name loc => exact ⟨':', by simp, mem_singleton.1 h⟩
  | pattern loc name => exact ⟨'=', by simp, mem_singleton.1 h⟩
  | replacement loc name pattern => cases h

end Role

theorem Frame.mem_tokens {f : Frame} : w ∈ f.tokens ↔
    w ∈ [[f.brace.opening], [f.brace.closing], ['$']] ∨ f.nested = 0 ∧ w ∈ f.role.marks := by
  unfold Frame.tokens
  split
  · rename_i hnested
    simp [Nat.ne_of_gt hnested]
  · have hzero : f.nested = 0 := by omega
    cases f.role with
    | call loc fn args =>
      dsimp only [Role.marks, Builtin.marks]
      split
      · simp
      · simp [hzero, or_comm, or_assoc]
    | name | pattern => simp [hzero, Role.marks, or_comm, or_assoc]
    | replacement => simp [Role.marks]

/-- A token that an open reference asks for, and that does not begin with a dollar sign, is a
mark. -/
theorem eq_mark_of_mem_tokens {f : Frame} (ht : match? s = some t)
    (href : t.isReference = false) (hmem : t.text ∈ f.tokens) : t = .mark t.text := by
  obtain ⟨n, rfl⟩ | ⟨w, -, rfl⟩ := hash_or_mark ht (head_ne_dollar ht href)
  · have hhash : '#' ∈ (Token.hash n).text := by simp [text]
    rcases Frame.mem_tokens.1 hmem with hbase | ⟨-, hmark⟩
    · have hparens (b : Brace) : ∀ w ∈ [[b.opening], [b.closing], ['$']], '#' ∉ w := by
        cases b <;> decide
      exact absurd hhash (hparens _ _ hbase)
    · obtain ⟨c, hc, htext⟩ := Role.exists_of_mem_marks hmark
      rw [htext, mem_singleton] at hhash
      subst hhash
      exact absurd hc (by decide)
  · rfl

namespace Reader

theorem tokens_addText (st : Reader) (s : Text) (stops : List Text) :
    (st.addText s).tokens stops = st.tokens stops := by
  unfold Reader.addText
  split
  · rfl
  · unfold Reader.add Reader.tokens
    cases st.frames <;> rfl

theorem dollar_mem_tokens (st : Reader) (stops : List Text) : ['$'] ∈ st.tokens stops := by
  unfold Reader.tokens
  split
  · simp
  · exact Frame.mem_tokens.2 (.inl (by simp))

/-! ## How it takes up a mark -/

variable {st : Reader} {f : Frame} {n : Nat}

theorem mark_opening (st : Reader) (f : Frame) : st.mark f [f.brace.opening] =
    pure (st.setTop { f with nested := f.nested + 1, gathered := .text [f.brace.opening] ::
      f.gathered }) := by
  unfold mark
  rw [if_pos (by simp)]

theorem mark_inner (hn : f.nested = n + 1) : st.mark f [f.brace.closing] =
    pure (st.setTop { f with nested := n, gathered := .text [f.brace.closing] :: f.gathered }) := by
  unfold mark
  rw [if_neg (by simpa using (opening_ne_closing f.brace).symm), if_pos (by simp), hn,
    if_pos (Nat.succ_pos n)]
  rfl

theorem mark_closing (hn : f.nested = 0) : st.mark f [f.brace.closing] = st.close f := by
  unfold mark
  rw [if_neg (by simpa using (opening_ne_closing f.brace).symm), if_pos (by simp), hn,
    if_neg (Nat.lt_irrefl 0)]

theorem mark_awaited (hn : f.nested = 0) (hw : w ∈ f.role.marks) : st.mark f w =
    pure (st.setTop { f with gathered := [], role := f.role.next f.gathered.reverse }) := by
  obtain ⟨c, hc, rfl⟩ := Role.exists_of_mem_marks hw
  have hparens (b : Brace) : ∀ c ∈ [',', ':', '='], ¬ ([c] == [b.opening]) = true ∧
      ¬ ([c] == [b.closing]) = true := by
    cases b <;> decide
  obtain ⟨hopening, hclosing⟩ := hparens f.brace c hc
  unfold mark endPart
  rw [if_neg hopening, if_neg hclosing, hn, if_neg (Nat.lt_irrefl 0)]
  cases hrole : f.role with
  | call loc fn args =>
    rw [hrole, Role.mem_marks_call] at hw
    exact if_pos (beq_iff_eq.2 hw.1)
  | name loc | pattern loc name =>
    rw [hrole] at hw
    exact if_pos (beq_iff_eq.2 (mem_singleton.1 hw))
  | replacement loc name pattern =>
    rw [hrole] at hw
    cases hw

/-- The ways in which the innermost open reference takes up a mark. -/
inductive Takes (st : Reader) (f : Frame) : Text → ParseM Reader → Prop
  | opening : Takes st f [f.brace.opening]
      (pure (st.setTop { f with nested := f.nested + 1, gathered := .text [f.brace.opening] ::
        f.gathered }))
  | inner {n : Nat} (nested : f.nested = n + 1) : Takes st f [f.brace.closing]
      (pure (st.setTop { f with nested := n, gathered := .text [f.brace.closing] :: f.gathered }))
  | closing (nested : f.nested = 0) : Takes st f [f.brace.closing] (st.close f)
  | awaited {w : Text} (nested : f.nested = 0) (mark : w ∈ f.role.marks) :
      Takes st f w
        (pure (st.setTop { f with gathered := [], role := f.role.next f.gathered.reverse }))

/-- **A mark that an open reference asks for is taken up in one of the four ways.** -/
theorem takes_mark (hw : w ∈ f.tokens) (hdollar : w ≠ ['$']) (st : Reader) :
    st.Takes f w (st.mark f w) := by
  rcases Frame.mem_tokens.1 hw with hbase | ⟨hn, hmark⟩
  · simp only [mem_cons, hdollar, not_mem_nil, or_false] at hbase
    rcases hbase with rfl | rfl
    · rw [mark_opening]
      exact .opening
    · cases hn : f.nested with
      | zero =>
        rw [mark_closing hn]
        exact .closing hn
      | succ n =>
        rw [mark_inner hn]
        exact .inner hn
  · rw [mark_awaited hn hmark]
    exact .awaited hn hmark

end Reader

/-! ## One token -/

section

variable {d : Line} {m : Mode} {stops : List Text} {fresh : Bool} {st : Reader}
  {before tail blanks : Text} {o : Nat}
  {c : Char} {b : Brace} {f : Frame} {fs : List Frame} {x : Lexeme} {xs : List Lexeme}

/-- A mark that was asked for outside of all references ends the reading. -/
theorem readLexemes_mark_outside (hread : (st.mode m).read (st.tokens stops) x = .found s)
    (htoken : x.token.isReference = false) (hframes : (st.addText s).frames = []) :
    readLexemes d m stops tail fresh st (x :: xs) =
      if x.token.text == ['('] || x.token.text == ['\x7b'] then throw (.breach .assertion)
      else return ⟨ofItems (st.addText s).outer.reverse (some d.loc), some (x.token, x.stop)⟩ := by
  rw [readLexemes, hread]
  dsimp only
  rw [hframes]
  generalize x.token = t at htoken
  cases t with
  | dollar | reference | call => cases htoken
  | hash | mark => rfl

/-- A mark that was asked for in a reference is taken up by it. -/
theorem readLexemes_mark_inside (hread : (st.mode m).read (st.tokens stops) x = .found s)
    (htoken : x.token.isReference = false) (hframes : (st.addText s).frames = f :: fs) :
    readLexemes d m stops tail fresh st (x :: xs) =
      (st.addText s).mark f x.token.text >>= fun st' => readLexemes d m stops tail true st' xs := by
  rw [readLexemes, hread]
  dsimp only
  rw [hframes]
  generalize x.token = t at htoken
  cases t with
  | dollar | reference | call => cases htoken
  | hash | mark => rfl

theorem read_data (tokens : List Text) (w : Text) (t : Token) (o : Nat) :
    Mode.data.read tokens ⟨w, t, o⟩ =
    if Mode.wants tokens t then .found w else .plain (w ++ t.text) := rfl

/-- A token that was not asked for is gathered. -/
theorem resume_skipped (ht : match? (t.text ++ s) = some t) (href : t.isReference = false)
    (hno : t.text ∉ st.tokens stops) : resume d .data stops fresh st before o (t.text ++ s) =
      resume d .data stops false (st.addText (before.reverse ++ t.text)) []
        (o + t.text.length) s := by
  unfold resume
  rw [scan_token ht, readLexemes, show st.mode .data = .data from rfl, read_data,
    if_neg (by simp [Mode.wants, href, hno])]

/-- A mark that an open reference asks for is taken up. -/
theorem resume_mark (hframes : (st.addText before.reverse).frames = f :: fs)
    (ht : match? (w ++ s) = some (.mark w))
    (hw : w ∈ f.tokens) : resume d .data stops fresh st before o (w ++ s) =
      (st.addText before.reverse).mark f w >>= fun st' => resume d .data stops true st' []
        (o + w.length) s := by
  have htokens : st.tokens stops = f.tokens := by
    rw [← st.tokens_addText before.reverse]
    unfold Reader.tokens
    rw [hframes]
  have hread : (st.mode .data).read (st.tokens stops) ⟨before.reverse, .mark w, o⟩ =
      .found before.reverse := by
    rw [show st.mode .data = .data from rfl, read_data,
      if_pos (by simp [Mode.wants, text, htokens, hw])]
  have ht' : match? ((mark w).text ++ s) = some (.mark w) := ht
  show resume d .data stops fresh st before o ((mark w).text ++ s) = _
  unfold resume
  rw [scan_token ht']
  exact readLexemes_mark_inside hread rfl hframes

/-- A token that begins with a dollar sign was asked for everywhere. -/
theorem read_reference (href : t.isReference = true) :
    (st.mode .data).read (st.tokens stops) ⟨before.reverse, t, o⟩ = .found before.reverse := by
  rw [show st.mode .data = .data from rfl, read_data,
    if_pos (by simp [Mode.wants, href, st.dollar_mem_tokens])]

theorem resume_reference (ht : match? ('$' :: c :: s) = some (.reference c)) :
    resume d .data stops fresh st before o ('$' :: c :: s) =
      resume d .data stops true ((st.addText before.reverse).reference (d.locAt o) c) []
        (o + 2) s := by
  have ht' : match? ((reference c).text ++ s) = some (.reference c) := ht
  show resume d .data stops fresh st before o ((reference c).text ++ s) = _
  unfold resume
  rw [scan_token ht', readLexemes, read_reference rfl]
  rfl

theorem resume_call (ht : match? ((call b fn blanks).text ++ s) = some (.call b fn blanks)) :
    resume d .data stops fresh st before o ((call b fn blanks).text ++ s) =
      resume d .data stops true ((st.addText before.reverse).enter b (.call (d.locAt o) fn [])) []
        (o + (call b fn blanks).text.length) s := by
  unfold resume
  rw [scan_token ht, readLexemes, read_reference rfl]

end

end Expansion

end Rebuild
