import Rebuild.Proofs.Expansion.Inside
import Rebuild.Proofs.Expansion.Sound
/-!
# The arguments of a call

The text between the name of a function and the parenthesis that closes the call is divided at the
commas that stand outside of parentheses, and the last argument that the function takes has all of
the rest (`Builtin.arguments`). Read as plain data, a call has these arguments, or too few of them
(`parse_call`).
-/

namespace Rebuild

open List Text Token Brace

/-! ## Dividing a text -/

/-- How many parentheses are open after a character, if `depth` are open before it. -/
def Brace.depthAfter (b : Brace) (depth : Nat) (c : Char) : Nat :=
  if c == b.opening then depth + 1 else if c == b.closing then depth - 1 else depth

/-- A text closes as many parentheses as it opens and `depth` more, each after it was opened. -/
def Brace.balances (b : Brace) : Nat → Text → Bool
  | depth, [] => depth == 0
  | depth, c :: s => (c != b.closing || depth != 0) && b.balances (b.depthAfter depth c) s

/-- The pieces of a text between the commas outside of parentheses, of which `depth` are open before
it. -/
def Brace.pieces (b : Brace) : Nat → Text → List Text
  | _, [] => [[]]
  | depth, c :: s =>
    if c == ',' && depth == 0 then [] :: b.pieces 0 s
    else (b.pieces (b.depthAfter depth c) s).modifyHead (c :: ·)

/-- No more pieces than a limit, if there is one: the last one takes the rest, with its commas. -/
def Text.upTo : Option Nat → List Text → List Text
  | none, ps => ps
  | some k, ps => if ps.length ≤ k then ps else ps.take (k - 1) ++ [join [','] (ps.drop (k - 1))]

/-- The arguments that a text gives to a function; the condition of an `if` is trimmed. -/
def Builtin.arguments (f : Builtin) (b : Brace) (r : Text) : List Text :=
  let args := upTo f.maxArgs? (b.pieces 0 r)
  if f = .cond then args.modifyHead trim else args

/-- Nested parentheses hide their commas, and the third argument of an `if` takes the rest. -/
example :
    Builtin.arguments .cond .round "a ,f(b,c),d,e" = (["a", "f(b,c)", "d,e"] : List Text) := by
  decide

namespace Text

variable {limit : Option Nat} {p : Text} {ps : List Text}

theorem upTo_singleton (h : ∀ k ∈ limit, 1 ≤ k) (p : Text) : upTo limit [p] = [p] := by
  cases limit with
  | none => rfl
  | some k => exact if_pos (h k rfl)

theorem upTo_cons (h : ∀ k ∈ limit, 2 ≤ k) (p : Text) (ps : List Text) :
    upTo limit (p :: ps) = p :: upTo (limit.map (· - 1)) ps := by
  cases limit with
  | none => rfl
  | some k =>
    obtain ⟨j, rfl⟩ := Nat.exists_eq_add_of_le' (h k rfl)
    show (if _ then _ else _) = p :: (if _ then _ else _)
    have hlen : (p :: ps).length ≤ j + 2 ↔ ps.length ≤ j + 2 - 1 := by
      rw [length_cons]
      omega
    simp only [hlen]
    split <;> simp

theorem upTo_one (h : ps ≠ []) : upTo (some 1) ps = [join [','] ps] := by
  cases ps with
  | nil => cases h rfl
  | cons p ps =>
    cases ps with
    | nil => rfl
    | cons q ps => simp [upTo]

theorem join_modifyHead (p sep : Text) (h : ps ≠ []) :
    join sep (ps.modifyHead (p ++ ·)) = p ++ join sep ps := by
  cases ps with
  | nil => cases h rfl
  | cons q ps =>
    cases ps with
    | nil => rfl
    | cons r ps => simp [join]

theorem length_upTo_some {k : Nat} (hk : 1 ≤ k) (ps : List Text) :
    (upTo (some k) ps).length = min ps.length k := by
  rw [upTo]
  split
  · omega
  · rw [length_append, length_take, length_singleton]
    omega

/-- After a piece that is complete there is one piece less to come. -/
theorem reverse_append_upTo_cons {args : List Text} (h : ∀ k ∈ limit, args.length + 2 ≤ k) :
    args.reverse ++ upTo (limit.map (· - args.length)) (p :: ps) =
      (p :: args).reverse ++ upTo (limit.map (· - (p :: args).length)) ps := by
  have hlimit : ∀ k ∈ limit.map (· - args.length), 2 ≤ k := by
    intro k hk
    obtain ⟨j, hj, rfl⟩ := Option.map_eq_some_iff.1 hk
    have := h j hj
    omega
  have hless : (limit.map (· - args.length)).map (· - 1) = limit.map (· - (p :: args).length) := by
    rw [Option.map_map]
    rfl
  rw [upTo_cons hlimit, hless, reverse_cons, append_assoc]
  rfl

/-- Where one piece is allowed, a comma belongs to it. -/
theorem upTo_one_cons (h : ps ≠ []) :
    upTo (some 1) (p :: ps) = upTo (some 1) (ps.modifyHead ((p ++ [',']) ++ ·)) := by
  have hne : ps.modifyHead ((p ++ [',']) ++ ·) ≠ [] := by simpa [modifyHead_eq_nil_iff] using h
  rw [upTo_one (cons_ne_nil p ps), upTo_one hne, join_cons _ _ h, join_modifyHead _ _ h]

end Text

namespace Brace

variable {b : Brace} {n : Nat} {c : Char} {s w : Text}

theorem pieces_ne_nil (b : Brace) (n : Nat) (s : Text) : b.pieces n s ≠ [] := by
  induction s generalizing n with
  | nil => simp [pieces]
  | cons c s ih =>
    rw [pieces]
    split
    · simp
    · simpa [modifyHead_eq_nil_iff] using ih _

/-- A character that is no comma outside of parentheses belongs to the first piece. -/
theorem pieces_cons (h : c ≠ ',' ∨ n ≠ 0) (s : Text) :
    b.pieces n (c :: s) = (b.pieces (b.depthAfter n c) s).modifyHead ([c] ++ ·) := by
  rw [pieces, if_neg (by simpa [imp_iff_not_or] using h)]
  rfl

theorem modifyHead_append (u v : Text) (ps : List Text) :
    (ps.modifyHead (v ++ ·)).modifyHead (u ++ ·) = ps.modifyHead ((u ++ v) ++ ·) := by
  rw [modifyHead_modifyHead]
  congr 1
  funext x
  simp

theorem depthAfter_opening (n : Nat) : b.depthAfter n b.opening = n + 1 := by simp [depthAfter]

theorem depthAfter_closing (n : Nat) : b.depthAfter (n + 1) b.closing = n := by
  simp [depthAfter, (opening_ne_closing b).symm]

theorem depthAfter_of_ne (hopening : c ≠ b.opening) (hclosing : c ≠ b.closing) (n : Nat) :
    b.depthAfter n c = n := by
  simp [depthAfter, hopening, hclosing]

/-- Characters that are neither commas nor parentheses belong to the first piece. -/
theorem pieces_append (h : ∀ c ∈ w, c ≠ ',' ∧ c ≠ b.opening ∧ c ≠ b.closing) (n : Nat) (s : Text) :
    b.pieces n (w ++ s) = (b.pieces n s).modifyHead (w ++ ·) := by
  induction w with
  | nil =>
    rw [nil_append]
    cases b.pieces n s <;> rfl
  | cons c w ih =>
    obtain ⟨⟨hcomma, hopening, hclosing⟩, hw⟩ := forall_mem_cons.1 h
    rw [cons_append, pieces_cons (.inl hcomma), depthAfter_of_ne hopening hclosing, ih hw,
      modifyHead_append]
    rfl

theorem balances_opening : b.balances n (b.opening :: s) = b.balances (n + 1) s := by
  simp [balances, depthAfter_opening, opening_ne_closing b]

theorem balances_closing : b.balances (n + 1) (b.closing :: s) = b.balances n s := by
  simp [balances, depthAfter_closing]

theorem balances_append (h : ∀ c ∈ w, c ≠ b.opening ∧ c ≠ b.closing) (n : Nat) (s : Text) :
    b.balances n (w ++ s) = b.balances n s := by
  induction w with
  | nil => rfl
  | cons c w ih =>
    obtain ⟨⟨hopening, hclosing⟩, hw⟩ := forall_mem_cons.1 h
    rw [cons_append, balances, depthAfter_of_ne hopening hclosing, ih hw]
    simp [hclosing]

end Brace

namespace Expansion

/-! ## Complete calls -/

/-- Text as an argument. -/
def ofArgument (s : Text) : Expansion := .literal s none

theorem makeCall_texts {fn : Builtin} {texts : List Text}
    (hmax : ∀ k ∈ fn.maxArgs?, texts.length ≤ k)
    (loc : Location) : makeCall loc fn (texts.map ofArgument) =
      if texts.length < fn.minArgs then .error
        (.refused (.fewArguments fn.name fn.minArgs) (some loc))
      else .ok (.call (some loc) fn
        ((if fn = .cond then texts.modifyHead trim else texts).map ofArgument)) := by
  unfold makeCall
  rw [length_map, if_neg (Builtin.not_any_maxArgs hmax)]
  split
  · rfl
  · by_cases hcond : fn = .cond
    · subst hcond
      rw [if_pos rfl]
      cases texts with
      | nil => rfl
      | cons s texts => rfl
    · rw [if_neg hcond]
      split
      · cases hcond rfl
      · rfl

/-! ## Reading arguments -/

section Reading

variable {b : Brace} {n : Nat} {loc : Location} {fn : Builtin} {args : List Text}
  {part r z : Text} {d : Line}
  {stops : List Text} {st : Reader} {offset : Nat} {c : Char} {t : Token} {as : List Expansion}

/-- What a call does at its end with the texts of its arguments. -/
def closeCall (d : Line) (stops : List Text) (st : Reader) (loc : Location) (fn : Builtin)
    (texts : List Text)
    (offset : Nat) (z : Text) : ParseM Read := do
  let ref ← makeCall loc fn (texts.map ofArgument)
  resume d .data stops true (st.add (.ref ref)) [] offset z

theorem reads_call_nil (hroom : ∀ k ∈ fn.maxArgs?, args.length < k) :
    Part.Reads ⟨b, 0, .call loc fn (args.map ofArgument), part⟩ d stops st offset (b.closing :: z)
      (· = closeCall d stops st loc fn
        (args.reverse ++ upTo (fn.maxArgs?.map (· - args.length)) [part])
        (offset + 1) z) := by
  refine Part.Reads.closing rfl fun g hg => ?_
  have hlimit : ∀ k ∈ fn.maxArgs?.map (· - args.length), 1 ≤ k := by
    intro k hk
    obtain ⟨j, hj, rfl⟩ := Option.map_eq_some_iff.1 hk
    have := hroom j hj
    omega
  have hargs : (ofItems g.gathered.reverse none :: args.map ofArgument).reverse =
      (args.reverse ++ [part]).map ofArgument := by
    rw [hg.items]
    simp [ofArgument]
  have hclose : Reader.close { st with frames := g :: st.frames } g =
      (do return st.add (.ref (← makeCall loc fn ((args.reverse ++ [part]).map ofArgument)))) := by
    unfold Reader.close
    rw [hg.role, ← hargs]
    rfl
  rw [hclose, upTo_singleton hlimit]
  unfold closeCall
  simp only [bind_assoc, pure_bind]

/-- A comma outside of parentheses begins the next argument, or belongs to the last one. -/
theorem reads_call_comma {o : Nat} (hroom : ∀ k ∈ fn.maxArgs?, args.length < k)
    (h : ∀ (args' : List Text) (part' : Text), (∀ k ∈ fn.maxArgs?, args'.length < k) →
      Part.Reads ⟨b, 0, .call loc fn (args'.map ofArgument), part'⟩ d stops st (offset + 1)
        (r ++ b.closing :: z)
        (· = closeCall d stops st loc fn (args'.reverse ++ upTo (fn.maxArgs?.map (· - args'.length))
          ((b.pieces 0 r).modifyHead (part' ++ ·))) o z)) :
    Part.Reads ⟨b, 0, .call loc fn (args.map ofArgument), part⟩ d stops st offset
      (',' :: (r ++ b.closing :: z))
      (· = closeCall d stops st loc fn (args.reverse ++ upTo (fn.maxArgs?.map (· - args.length))
        (part :: b.pieces 0 r)) o z) := by
  cases hlast : fn.lastAfter args.length with
  | false =>
    have hmore : ∀ k ∈ fn.maxArgs?, args.length + 2 ≤ k := by
      intro k hk
      have hlt := hroom k hk
      have hne : k ≠ args.length + 1 := by
        rintro rfl
        simp [Builtin.lastAfter, Option.mem_def.1 hk] at hlast
      omega
    have hnext := h (part :: args) [] hmore
    have hhead : (b.pieces 0 r).modifyHead ([] ++ ·) = b.pieces 0 r := by
      cases b.pieces 0 r <;> rfl
    rw [hhead, ← reverse_append_upTo_cons hmore] at hnext
    refine Part.Reads.awaited rfl (Role.mem_marks_call.2 ⟨rfl, by simpa using hlast⟩)
      (Part.match?_comma _)
      fun items hitems htext => ?_
    dsimp only [Role.next]
    rw [ofItems_eq_literal hitems, htext]
    exact hnext
  | true =>
    have hmax : fn.maxArgs?.map (· - args.length) = some 1 := by
      rw [eq_of_beq hlast]
      simp
    have hnext := h args (part ++ [',']) hroom
    rw [hmax] at hnext ⊢
    rw [← upTo_one_cons (pieces_ne_nil b 0 r)] at hnext
    refine Part.Reads.token (t := .mark [',']) (Part.match?_comma _) rfl (fun hmem => ?_) hnext
    rcases Part.mem_tokens.1 hmem with hbase | ⟨-, hmark⟩
    · have hparens : [','] ∉ [[b.opening], [b.closing], ['$']] := by cases b <;> decide
      exact hparens hbase
    · have hno := (Role.mem_marks_call.1 hmark).2
      simp [length_map, hlast] at hno

/-- A token that is neither a parenthesis nor a comma outside of parentheses belongs to a piece. -/
theorem token_of_piece (ht : match? (c :: r ++ b.closing :: z) = some t) (hc : c ≠ '$')
    (hopening : c ≠ b.opening) (hclosing : c ≠ b.closing) (hcomma : c ≠ ',' ∨ n ≠ 0) :
    ∃ rest, c :: r = t.text ++ rest ∧ t.isReference = false ∧
      (∀ loc fn as part, t.text ∉ Part.tokens ⟨b, n, .call loc fn as, part⟩) ∧
      b.pieces n (c :: r) = (b.pieces n rest).modifyHead (t.text ++ ·) ∧
      b.balances n (c :: r) = b.balances n rest := by
  have hapart : Token.Apart (c :: r) (b.closing :: z) :=
    .inr (by simpa using closing_not_mem_joints b)
  obtain ⟨rest, hrest⟩ := exists_append_of_apart hapart hc ht
  have hhead : (c :: r ++ b.closing :: z).head? ≠ some '$' := by simpa using hc
  have hchars : t.text = [c] ∨ ∀ x ∈ t.text, x ∈ joints := by
    refine (length_eq_one_or_joints ht hhead).imp_left fun hlen => ?_
    obtain ⟨x, hx⟩ := length_eq_one_iff.1 hlen
    rw [hx] at hrest ⊢
    rw [(List.cons.inj hrest).1]
  have hparens : ∀ x ∈ t.text, x ≠ b.opening ∧ x ≠ b.closing := by
    rcases hchars with hone | hjoints
    · rw [hone]
      simpa using ⟨hopening, hclosing⟩
    · intro x hx
      have hmem := hjoints x hx
      constructor <;> rintro rfl <;> revert hmem <;> cases b <;> decide
  have hcommas : ',' ∈ t.text → n ≠ 0 := by
    intro hmem
    rcases hchars with hone | hjoints
    · rw [hone, mem_singleton] at hmem
      exact hcomma.resolve_left (not_not_intro hmem.symm)
    · exact absurd (hjoints _ hmem) (by decide)
  refine ⟨rest, hrest, isReference_eq_false ht hc, ?_, ?_, ?_⟩
  · intro loc fn as part hmem
    rcases Part.mem_tokens.1 hmem with hbase | ⟨hn, hmark⟩
    · simp only [mem_cons, not_mem_nil, or_false] at hbase
      rcases hbase with h | h | h
      · exact (hparens _ (h ▸ mem_singleton_self _)).1 rfl
      · exact (hparens _ (h ▸ mem_singleton_self _)).2 rfl
      · exact dollar_not_mem ht hhead (h ▸ mem_singleton_self _)
    · exact hcommas ((Role.mem_marks_call.1 hmark).1 ▸ mem_singleton_self _) hn
  · rcases hchars with hone | hjoints
    · rw [hone] at hrest ⊢
      obtain ⟨-, rfl⟩ := List.cons.inj hrest
      rw [pieces_cons hcomma, depthAfter_of_ne hopening hclosing]
    · rw [hrest]
      refine pieces_append (fun x hx => ⟨?_, hparens x hx⟩) n rest
      rintro rfl
      exact absurd (hjoints _ hx) (by decide)
  · rw [hrest, balances_append hparens]

/-- What begins with anything but a comma outside of parentheses belongs to the piece at hand, as
far as one character or one token goes. -/
theorem reads_call_piece {Q : ParseM Read → Prop} (hc : c ≠ '$') (hcomma : c ≠ ',' ∨ n ≠ 0)
    (hbalances : b.balances n (c :: r) = true)
    (h : ∀ (w r' : Text) (n' : Nat), c :: r = w ++ r' → w ≠ [] →
      b.pieces n (c :: r) = (b.pieces n' r').modifyHead (w ++ ·) → b.balances n' r' = true →
      Part.Reads ⟨b, n', .call loc fn as, part ++ w⟩ d stops st (offset + w.length)
        (r' ++ b.closing :: z) Q) :
    Part.Reads ⟨b, n, .call loc fn as, part⟩ d stops st offset (c :: r ++ b.closing :: z) Q := by
  obtain ⟨hclose, hb⟩ : (c = b.closing → n ≠ 0) ∧ b.balances (b.depthAfter n c) r = true := by
    simpa [balances, imp_iff_not_or] using hbalances
  have hchar := h [c] r _ rfl (cons_ne_nil _ _) (pieces_cons hcomma r) hb
  by_cases hopening : c = b.opening
  · subst hopening
    rw [depthAfter_opening] at hchar
    exact Part.Reads.opening hchar
  by_cases hclosing : c = b.closing
  · subst hclosing
    obtain ⟨m, rfl⟩ := Nat.exists_eq_succ_of_ne_zero (hclose rfl)
    rw [depthAfter_closing] at hchar
    exact Part.Reads.inner rfl hchar
  cases ht : match? (c :: r ++ b.closing :: z) with
  | none =>
    rw [depthAfter_of_ne hopening hclosing] at hchar
    exact Part.Reads.char ht hchar
  | some t =>
    obtain ⟨rest, hrest, href, hno, hpieces, hbal⟩ := token_of_piece ht hc hopening hclosing hcomma
    have hgoes := h t.text rest n hrest (text_ne_nil_of_match? ht) hpieces (hbal ▸ hbalances)
    rw [hrest, append_assoc] at ht ⊢
    exact Part.Reads.token ht href (hno _ _ _ _) hgoes

/-- **A call is read with the pieces of its text as arguments**, from an argument that is begun
on. -/
theorem reads_call (hdollar : '$' ∉ r) (hbalances : b.balances n r = true)
    (hroom : ∀ k ∈ fn.maxArgs?, args.length < k) :
    Part.Reads ⟨b, n, .call loc fn (args.map ofArgument), part⟩ d stops st offset
      (r ++ b.closing :: z)
      (· = closeCall d stops st loc fn (args.reverse ++ upTo (fn.maxArgs?.map (· - args.length))
        ((b.pieces n r).modifyHead (part ++ ·))) (offset + r.length + 1) z) := by
  induction r using pieces_induction generalizing n args part offset with
  | nil =>
    obtain rfl : n = 0 := by simpa [balances] using hbalances
    have hpieces : (b.pieces 0 []).modifyHead (part ++ ·) = [part] := by simp [pieces]
    rw [hpieces]
    exact reads_call_nil hroom
  | cons c r ih =>
    -- reading goes on after some characters of the text, with the arguments that are complete then
    have hnext {w r' : Text} {n' : Nat} {args' : List Text} {part' : Text} (hw : c :: r = w ++ r')
      (hne : w ≠ [])
        (hb : b.balances n' r' = true) (hroom' : ∀ k ∈ fn.maxArgs?, args'.length < k) :
        Part.Reads ⟨b, n', .call loc fn (args'.map ofArgument), part'⟩ d stops st
          (offset + w.length)
          (r' ++ b.closing :: z) (· = closeCall d stops st loc fn (args'.reverse ++ upTo
            (fn.maxArgs?.map (· - args'.length)) ((b.pieces n' r').modifyHead (part' ++ ·)))
            (offset + (c :: r).length + 1) z) := by
      have hlength : offset + (c :: r).length = offset + w.length + r'.length := by
        rw [hw, length_append, Nat.add_assoc]
      rw [hlength]
      exact ih w r' hw hne (fun hmem => hdollar (hw ▸ mem_append_right _ hmem)) hb hroom'
    by_cases hcomma : c = ',' ∧ n = 0
    · obtain ⟨rfl, rfl⟩ := hcomma
      have hpieces : (b.pieces 0 (',' :: r)).modifyHead (part ++ ·) = part :: b.pieces 0 r := by
        simp [pieces]
      have hb : b.balances 0 r = true := by
        rw [balances, Bool.and_eq_true] at hbalances
        cases b <;> exact hbalances.2
      rw [hpieces]
      exact reads_call_comma hroom fun args' part' hroom' =>
        hnext (w := [',']) rfl (cons_ne_nil _ _) hb hroom'
    · have hc : c ≠ '$' := fun hc => hdollar (hc ▸ mem_cons_self)
      refine reads_call_piece hc (by tauto) hbalances fun w r' n' hw hne hp hb => ?_
      rw [hp, modifyHead_append]
      exact hnext hw hne hb hroom

end Reading

/-! ## Whole calls -/

section Whole

variable {b : Brace} {fn : Builtin} {blanks : Text}

/-- At the end of the text, a call of so many pieces is the result, or is refused. -/
theorem closeCall_upTo (d : Line) (stops : List Text) (loc : Location) (fn : Builtin)
    (b : Brace) (r : Text)
    (offset : Nat) : closeCall d stops ⟨[], []⟩ loc fn (upTo fn.maxArgs? (b.pieces 0 r)) offset [] =
      if (b.pieces 0 r).length < fn.minArgs then
        throw (.refused (.fewArguments fn.name fn.minArgs) (some loc))
      else pure ⟨.sequence [.ref (.call (some loc) fn ((fn.arguments b r).map ofArgument))]
        (some d.loc), none⟩ := by
  have hpos := Builtin.one_le_minArgs fn
  have hlen : ∀ k ∈ fn.maxArgs?, (upTo fn.maxArgs? (b.pieces 0 r)).length =
      min (b.pieces 0 r).length k := by
    intro k hk
    rw [Option.mem_def.1 hk, length_upTo_some (hpos.trans (fn.minArgs_le k hk))]
  have hmax : ∀ k ∈ fn.maxArgs?, (upTo fn.maxArgs? (b.pieces 0 r)).length ≤ k := by
    intro k hk
    rw [hlen k hk]
    exact Nat.min_le_right _ _
  have hfew : (upTo fn.maxArgs? (b.pieces 0 r)).length < fn.minArgs ↔
      (b.pieces 0 r).length < fn.minArgs := by
    cases hk : fn.maxArgs? with
    | none => rfl
    | some k =>
      have := fn.minArgs_le k hk
      rw [← hk, hlen k hk]
      omega
  unfold closeCall
  rw [makeCall_texts hmax]
  simp only [hfew]
  split
  · rfl
  · exact Part.resume_ref ⟨rfl, rfl⟩ _ offset

/-- **A call is read with the pieces of its text as arguments**: the text after the name is divided
at the commas outside of parentheses, the last argument that the function takes has the rest, and
the condition of an `if` is trimmed. It is refused exactly if there are fewer pieces than the
function needs. -/
theorem parse_call (d : Line) (offset : Nat) (b : Brace) (fn : Builtin) (blanks r : Text)
    (hcovers : d.covers offset = true)
    (hrest : d.rest offset = '$' :: b.opening :: (fn.name ++ blanks ++ r ++ [b.closing]))
    (hne : blanks ≠ []) (hblanks : ∀ c ∈ blanks, isBlank c = true)
    (hhead : ∀ c ∈ r.head?, isBlank c = false) (hdollar : '$' ∉ r)
    (hbalances : b.balances 0 r = true) :
    parse d offset [] .data =
      if (b.pieces 0 r).length < fn.minArgs then
        throw (.refused (.fewArguments fn.name fn.minArgs) (some (d.locAt offset)))
      else pure
        ⟨.sequence [.ref (.call (some (d.locAt offset)) fn ((fn.arguments b r).map ofArgument))]
        (some d.loc), none⟩ := by
  have hs : Ink (r ++ [b.closing]) := by
    cases r with
    | nil =>
      rintro c ⟨⟩
      exact (border_closing b).1
    | cons c r => exact hhead
  have ht : match? ((call b fn blanks).text ++ (r ++ [b.closing])) = some (.call b fn blanks) :=
    match?_call_iff.2 ⟨⟨hne, hblanks⟩, hs⟩
  have hroom : ∀ k ∈ fn.maxArgs?, ([] : List Text).length < k := fun k hk =>
    (Builtin.one_le_minArgs fn).trans (fn.minArgs_le k hk)
  have hreads : Part.Reads ⟨b, 0, .call (d.locAt offset) fn [], []⟩ d [] ⟨[], []⟩
      (offset + (call b fn blanks).text.length) (r ++ [b.closing]) (· = _) :=
    @reads_call b 0 _ fn [] [] r [] d [] _ _ hdollar hbalances hroom
  have hargs : ([] : List Text).reverse ++ upTo (fn.maxArgs?.map (· - ([] : List Text).length))
      ((b.pieces 0 r).modifyHead ([] ++ ·)) = upTo fn.maxArgs? (b.pieces 0 r) := by
    cases fn.maxArgs? <;> cases b.pieces 0 r <;> rfl
  rw [hargs] at hreads
  have htext : '$' :: b.opening :: (fn.name ++ blanks ++ r ++ [b.closing]) =
      (call b fn blanks).text ++ (r ++ [b.closing]) := by simp [text]
  have hresume : resume d .data [] true ⟨[], []⟩ [] offset
      ((call b fn blanks).text ++ (r ++ [b.closing])) = _ :=
    Part.Reads.enterCall (Q := (· = _)) ht hreads
  rw [parse_eq_resume hcovers, hrest, htext, hresume]
  exact closeCall_upTo ..

/-- An `if` with a call inside of parentheses in its second argument, and a `subst` without its
third. -/
theorem parse_call_examples :
    parse (Line.ofText "$(if a ,f(b,c),d,e)" "f") 0 [] .data =
      pure ⟨.sequence
        [.ref (.call (some ⟨"f", 1, 0⟩) .cond [ofArgument "a", ofArgument "f(b,c)",
          ofArgument "d,e"])]
        (some ⟨"f", 1, 0⟩), none⟩ ∧
    parse (Line.ofText "$(subst a,(b,c))" "f") 0 [] .data =
      throw (.refused (.fewArguments "subst" 3) (some ⟨"f", 1, 0⟩)) :=
  ⟨parse_call _ 0 .round .cond [' '] "a ,f(b,c),d,e" (by decide) (by decide) (by decide)
    (by decide) (by decide)
      (by decide) (by decide),
    parse_call _ 0 .round .subst [' '] "a,(b,c)" (by decide) (by decide) (by decide)
      (by decide) (by decide)
      (by decide) (by decide)⟩

end Whole

end Expansion

end Rebuild
