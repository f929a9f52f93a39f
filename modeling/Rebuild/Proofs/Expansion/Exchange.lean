import Rebuild.Proofs.Expansion.Printing
/-!
# Other parentheses

A reference may have been read in one kind of parenthesis and be written in the other. The tokens of
its parts do not depend on this; so the reader also passes over a part between other parentheses, if
those are balanced in it (`Passes.exchange`). It meets the marks then that stand outside of the
other parentheses (`Glyph.shown`), and the reference is spelled between them
(`Reference.Spelled.legible`) if none of these marks ends a part.
-/

namespace Rebuild

open List Token

variable {s : Text} {t : Token} {c : Char} {r : Reference}

theorem Token.eq_colon (h : match? s = some t) (hs : s.head? ≠ some '$') (htext : t.text = [':']) :
    t = .mark [':'] := by
  obtain ⟨n, rfl⟩ | ⟨w, -, rfl⟩ := hash_or_mark h hs
  · have hhash : '#' ∈ (hash n).text := by simp [text]
    rw [htext] at hhash
    simp at hhash
  · exact congrArg _ htext

/-- A token in which a parenthesis stands is that parenthesis. -/
theorem Token.text_eq_of_brace {b : Brace} (ht : match? s = some t) (hs : s.head? ≠ some '$')
    (hc : c ∈ t.text) (hbrace : c = b.opening ∨ c = b.closing) : t.text = [c] := by
  have hjoint : c ∉ joints := by rcases hbrace with rfl | rfl <;> cases b <;> decide
  obtain hlen | hjoints := length_eq_one_or_joints ht hs
  · obtain ⟨x, hx⟩ := length_eq_one_iff.1 hlen
    rw [hx, mem_singleton] at hc
    rw [hx, hc]
  · exact absurd (hjoints c hc) hjoint

namespace Glyph

/-- The characters among glyphs. -/
def chars : List Glyph → Text
  | [] => []
  | .char c :: gs => c :: chars gs
  | .ref _ :: gs => chars gs

@[simp] theorem chars_nil : chars [] = [] := rfl

@[simp] theorem chars_char (c : Char) (gs : List Glyph) :
    chars (.char c :: gs) = c :: chars gs := rfl

@[simp] theorem chars_ref (r : Reference) (gs : List Glyph) : chars (.ref r :: gs) = chars gs := rfl

@[simp] theorem chars_append (gs hs : List Glyph) : chars (gs ++ hs) = chars gs ++ chars hs := by
  induction gs with
  | nil => rfl
  | cons g gs ih => cases g <;> simp [ih]

@[simp] theorem chars_ofText (s : Text) : chars (ofText s) = s := by
  induction s with
  | nil => rfl
  | cons c s ih => simp [ih]

theorem mem_chars {gs : List Glyph} : c ∈ chars gs ↔ .char c ∈ gs := by
  induction gs with
  | nil => simp
  | cons g gs ih => cases g <;> simp [ih]

variable {b b' : Brace} {stops : List Text} {z : Text} {n m k : Nat} {gs x y : List Glyph}
  {fn : Builtin} {args : List Expansion}

/-! ## The same tokens -/

/-- A token is passed over as such, unless it is a parenthesis of the kind that counts. -/
theorem Passes.token_of_balances (found : match? (t.text ++ (skeleton gs ++ z)) = some t)
    (mark : t.isReference = false) (hbalances : b.balances k (t.text ++ chars gs) = true)
    (rest : ∀ k, b.balances k (chars gs) = true → Passes b [] z k gs 0) :
    Passes b [] z k (ofText t.text ++ gs) 0 := by
  have hhead := head_ne_dollar found mark
  by_cases hopening : t.text = [b.opening]
  · rw [hopening] at hbalances ⊢
    exact .opening (rest _ (Brace.balances_opening.symm.trans hbalances))
  by_cases hclosing : t.text = [b.closing]
  · rw [hclosing] at hbalances ⊢
    cases k with
    | zero => simp [Brace.balances] at hbalances
    | succ k => exact .closing (rest _ (Brace.balances_closing.symm.trans hbalances))
  have hno : ∀ c ∈ t.text, c ≠ b.opening ∧ c ≠ b.closing := by
    refine fun c hc => ⟨?_, ?_⟩
    · rintro rfl
      exact hopening (text_eq_of_brace found hhead hc (.inl rfl))
    · rintro rfl
      exact hclosing (text_eq_of_brace found hhead hc (.inr rfl))
  rw [Brace.balances_append hno] at hbalances
  exact .token found mark ⟨hopening, hclosing⟩ (fun _ => not_mem_nil) (rest _ hbalances)

/-- **The reader passes over glyphs between other parentheses too**, if those are balanced in
them. -/
theorem Passes.exchange (h : Passes b' stops z n gs m) (hdollar : '$' ∉ chars gs)
    (hbalances : b.balances k (chars gs) = true) : Passes b [] z k gs 0 := by
  -- the tokens are those of the first passage; what changes is which of them count as parentheses
  induction h generalizing k with
  | nil =>
    obtain rfl : k = 0 := by simpa [Brace.balances] using hbalances
    exact .nil
  | @char n m c gs free rest ih =>
    have hc : ∀ x ∈ [c], x ≠ b.opening ∧ x ≠ b.closing := by
      refine forall_mem_singleton.2 ⟨?_, ?_⟩
      · rintro rfl
        cases (match?_opening b _).symm.trans free
      · rintro rfl
        cases (match?_closing b _).symm.trans free
    rw [chars_char, mem_cons, not_or] at hdollar
    exact .char free (ih hdollar.2 ((Brace.balances_append hc k _).symm.trans hbalances))
  | token found mark _ _ _ ih =>
    rw [chars_append, chars_ofText] at hdollar hbalances
    exact .token_of_balances found mark hbalances fun k => ih fun hmem =>
      hdollar (mem_append_right _ hmem)
  | opening _ ih =>
    rw [chars_char, mem_cons, not_or] at hdollar
    refine .token_of_balances (t := .mark [b'.opening]) ?_ rfl hbalances fun k => ih hdollar.2
    exact match?_opening b' _
  | closing _ ih =>
    rw [chars_char, mem_cons, not_or] at hdollar
    refine .token_of_balances (t := .mark [b'.closing]) ?_ rfl hbalances fun k => ih hdollar.2
    exact match?_closing b' _
  | dollar => exact absurd mem_cons_self hdollar
  | ref _ ih => exact .ref (ih hdollar hbalances)

/-! ## Marks outside of parentheses -/

/-- The tokens that stand outside of parentheses `b`, of which `depth` are open before the glyphs,
with a text `z` after them. The first `skip` glyphs belong to a token before. -/
def shown (b : Brace) (z : Text) : (depth skip : Nat) → List Glyph → List Text
  | _, _, [] => []
  | depth, _, .ref _ :: gs => shown b z depth 0 gs
  | depth, skip + 1, .char _ :: gs => shown b z depth skip gs
  | depth, 0, .char c :: gs =>
    if c = '$' then shown b z depth 0 gs
    else match match? (c :: (skeleton gs ++ z)) with
      | none => shown b z depth 0 gs
      | some t =>
        (if depth = 0 then [t.text] else []) ++ shown b z (b.depthAfter depth c)
          (t.text.length - 1) gs

theorem shown_skip (s : Text) (gs : List Glyph) :
    shown b z n s.length (ofText s ++ gs) = shown b z n 0 gs := by
  induction s with
  | nil => rfl
  | cons c s ih => exact ih

theorem shown_char (hfree : match? (c :: (skeleton gs ++ z)) = none) :
    shown b z n 0 (.char c :: gs) = shown b z n 0 gs := by
  rw [shown, hfree]
  split <;> rfl

theorem shown_dollar : shown b z n 0 (.char '$' :: gs) = shown b z n 0 gs := by
  rw [shown, if_pos rfl]

theorem shown_ref : shown b z n 0 (.ref r :: gs) = shown b z n 0 gs := by
  rw [shown]

theorem shown_token {w : Text} (ht : t.text = c :: w)
    (hfound : match? (t.text ++ (skeleton gs ++ z)) = some t) (hmark : t.isReference = false) :
    shown b z n 0 (ofText t.text ++ gs) = (if n = 0 then [t.text] else []) ++ shown b z
      (b.depthAfter n c) 0 gs := by
  have hc : c ≠ '$' := by simpa [ht] using head_ne_dollar hfound hmark
  have hfound' : match? (c :: (skeleton (ofText w ++ gs) ++ z)) = some t := by
    simpa [ht] using hfound
  have hskip := shown_skip (b := b) (z := z) (n := b.depthAfter n c) w gs
  have hlength : t.text.length - 1 = w.length := by simp [ht]
  conv => lhs; rw [ht]
  rw [ofText_cons, cons_append, shown, if_neg hc, hfound']
  simp only [hlength, hskip]

/-- A token that is no parenthesis is shown outside of them. -/
theorem shown_mark (hfound : match? (t.text ++ (skeleton gs ++ z)) = some t)
    (hmark : t.isReference = false) (hparen : t.text ≠ [b.opening] ∧ t.text ≠ [b.closing]) :
    shown b z n 0 (ofText t.text ++ gs) = (if n = 0 then [t.text] else []) ++ shown b z n 0 gs := by
  obtain ⟨c, w, ht⟩ := exists_cons_of_ne_nil (text_ne_nil_of_match? hfound)
  have hmem : c ∈ t.text := ht ▸ mem_cons_self
  have hhead := head_ne_dollar hfound hmark
  have hopening : c ≠ b.opening := by
    rintro rfl
    exact hparen.1 (text_eq_of_brace hfound hhead hmem (.inl rfl))
  have hclosing : c ≠ b.closing := by
    rintro rfl
    exact hparen.2 (text_eq_of_brace hfound hhead hmem (.inr rfl))
  rw [shown_token ht hfound hmark, Brace.depthAfter_of_ne hopening hclosing]

theorem shown_opening : shown b z n 0 (.char b.opening :: gs) =
    (if n = 0 then [[b.opening]] else []) ++ shown b z (n + 1) 0 gs := by
  rw [← Brace.depthAfter_opening]
  exact shown_token (t := .mark [b.opening]) rfl (match?_opening b _) rfl

theorem shown_closing : shown b z (n + 1) 0 (.char b.closing :: gs) = shown b z n 0 gs := by
  have h := shown_token (b := b) (n := n + 1) (t := .mark [b.closing]) rfl
    (match?_closing b (skeleton gs ++ z)) rfl
  rwa [Brace.depthAfter_closing] at h

/-- The reader meets no mark that is not shown. -/
theorem Passes.with_stops (h : Passes b [] z n gs m) (hshown : ∀ w ∈ stops, w ∉ shown b z n 0 gs) :
    Passes b stops z n gs m := by
  induction h with
  | nil => exact .nil
  | char free _ ih => exact .char free (ih (shown_char free ▸ hshown))
  | token found mark paren _ _ ih =>
    rw [shown_mark found mark paren] at hshown
    refine .token found mark paren ?_ (ih fun w hw hmem => hshown w hw (mem_append_right _ hmem))
    rintro rfl hmem
    exact hshown _ hmem mem_cons_self
  | opening _ ih =>
    rw [shown_opening] at hshown
    exact .opening (ih fun w hw hmem => hshown w hw (mem_append_right _ hmem))
  | closing _ ih => exact .closing (ih (shown_closing ▸ hshown))
  | dollar _ ih => exact .dollar (ih (shown_dollar ▸ hshown))
  | ref _ ih => exact .ref (ih (shown_ref ▸ hshown))

theorem Passes.without_stops (h : Passes b stops z n gs m) : Passes b [] z n gs m := by
  induction h with
  | nil => exact .nil
  | char free _ ih => exact .char free ih
  | token found mark paren _ _ ih => exact .token found mark paren (fun _ => not_mem_nil) ih
  | opening _ ih => exact .opening ih
  | closing _ ih => exact .closing ih
  | dollar _ ih => exact .dollar ih
  | ref _ ih => exact .ref ih

/-! ## Names -/

/-- From `n` open parentheses to `m`, the reader passes over the glyphs as in the name of a
variable: there is no colon outside of parentheses, or no equals sign after it. -/
inductive PassesName (b : Brace) (z : Text) (n m : Nat) : List Glyph → Prop
  | whole {gs : List Glyph} (passes : Passes b [[':']] z n gs m) : PassesName b z n m gs
  | divided {x y : List Glyph} (left : Passes b [[':']] (':' :: (skeleton y ++ z)) n x 0)
      (colon : match? (':' :: (skeleton y ++ z)) = some (.mark [':']))
      (right : Passes b [['=']] z 0 y m) :
      PassesName b z n m (x ++ .char ':' :: y)

theorem PassesName.append (h : Passes b [[':']] (skeleton gs ++ z) n x k)
    (h' : PassesName b z k m gs) :
    PassesName b z n m (x ++ gs) := by
  cases h' with
  | whole passes => exact .whole (h.append passes)
  | @divided x' y left colon right =>
    rw [← append_assoc]
    refine .divided (.append ?_ left) colon right
    simpa using h

/-- Glyphs are passed over as a name if no equals sign is shown after a colon. -/
theorem Passes.passesName (h : Passes b [] z n gs m)
    (hshown : ¬ [[':'], ['=']].Sublist (shown b z n 0 gs)) :
    PassesName b z n m gs := by
  induction h with
  | nil => exact .whole .nil
  | char free _ ih => exact .append (.char free .nil) (ih (shown_char free ▸ hshown))
  | @token n m t gs found mark paren _ rest ih =>
    rw [shown_mark found mark paren] at hshown
    by_cases hcolon : n = 0 ∧ t.text = [':']
    · -- the first colon outside of parentheses divides the name
      obtain ⟨rfl, htext⟩ := hcolon
      obtain rfl := eq_colon found (head_ne_dollar found mark) htext
      refine .divided .nil found (rest.with_stops (forall_mem_singleton.2 fun hmem => hshown ?_))
      exact .cons_cons [':'] (singleton_sublist.2 hmem)
    · have htoken : Passes b [[':']] (skeleton gs ++ z) n (ofText t.text ++ []) n :=
        .token found mark paren (fun hn => by simpa using fun htext => hcolon ⟨hn, htext⟩) .nil
      rw [append_nil] at htoken
      exact .append htoken (ih fun hsub => hshown (hsub.trans (sublist_append_right _ _)))
  | opening _ ih =>
    rw [shown_opening] at hshown
    exact .append (.opening .nil) (ih fun hsub => hshown (hsub.trans (sublist_append_right _ _)))
  | closing _ ih => exact .append (.closing .nil) (ih (shown_closing ▸ hshown))
  | dollar _ ih => exact .append (.dollar .nil) (ih (shown_dollar ▸ hshown))
  | ref _ ih => exact .append (.ref .nil) (ih (shown_ref ▸ hshown))

theorem PassesName.isName (h : PassesName b [] 0 0 gs) (hfree : callAfter? (skeleton gs) = none) :
    IsName b gs := by
  cases h with
  | whole passes => exact .whole hfree passes
  | @divided x y left colon right =>
    rw [skeleton_append, skeleton_char, callAfter?_append_iff border_colon] at hfree
    rw [append_nil] at colon left
    exact .divided hfree (left.congr rfl (nofun : some ':' ≠ some '\\')) colon right

theorem IsName.free (h : IsName b gs) : callAfter? (skeleton gs) = none := by
  cases h with
  | whole free _ => exact free
  | divided free _ _ _ =>
    rw [skeleton_append, skeleton_char, callAfter?_append_iff border_colon]
    exact free

theorem IsName.passes (h : IsName b gs) : Passes b [] [] 0 gs 0 := by
  cases h with
  | whole _ passes => exact passes.without_stops
  | @divided x y _ left colon right =>
    have hcolon : Passes b [] [] 0 (.char ':' :: y) 0 := by
      have hparen : [':'] ≠ [b.opening] ∧ [':'] ≠ [b.closing] := by cases b <;> decide
      have hfound : match? ([':'] ++ (skeleton y ++ [])) = some (.mark [':']) := by
        simpa using colon
      exact .token (t := .mark [':']) hfound rfl hparen (fun _ => not_mem_nil) right.without_stops
    exact .append (left.without_stops.congr rfl (by decide)) hcolon

/-! ## References -/

/-- A part can be written between parentheses `b` and before a text `z`: there is no dollar sign in
it, the parentheses are balanced, and none of the marks stands outside of them. -/
def fits (b : Brace) (z : Text) (marks : List Text) (gs : List Glyph) : Bool :=
  !(chars gs).contains '$' && b.balances 0 (chars gs) && marks.all fun w =>
  !(shown b z 0 0 gs).contains w

theorem fits_eq_true_iff : fits b z stops gs = true ↔
    '$' ∉ chars gs ∧ b.balances 0 (chars gs) = true ∧ ∀ w ∈ stops, w ∉ shown b z 0 0 gs := by
  simp [fits, and_assoc]

theorem dollar_not_mem_of_fits (h : fits b z stops gs = true) : .char '$' ∉ gs :=
  mt mem_chars.2 (fits_eq_true_iff.1 h).1

theorem Passes.of_fits {stops' : List Text} (h : Passes b' stops' z n gs m)
    (hfits : fits b z stops gs = true) :
    Passes b stops z 0 gs 0 := by
  obtain ⟨hdollar, hbalances, hshown⟩ := fits_eq_true_iff.1 hfits
  exact (h.exchange hdollar hbalances).with_stops hshown

/-- Can the arguments of a call be written between parentheses `b`, after `k` others? -/
def argsFit (b : Brace) (fn : Builtin) : Nat → List Expansion → Bool
  | _, [] => true
  | k, e :: rest => fits b [] (fn.marks k) e.glyphs && argsFit b fn (k + 1) rest

theorem ArgsPass.of_argsFit (h : ArgsPass b' fn k args) (hfit : argsFit b fn k args = true) :
    ArgsPass b fn k args := by
  induction args generalizing k with
  | nil => exact h
  | cons e args ih =>
    obtain ⟨he, hargs⟩ := Bool.and_eq_true_iff.1 hfit
    exact ⟨h.1.of_fits he, ih h.2 hargs⟩

theorem dollar_not_mem_of_argsFit (hfit : argsFit b fn k args = true) :
    ∀ e ∈ args, .char '$' ∉ e.glyphs := by
  induction args generalizing k with
  | nil => exact nofun
  | cons e args ih =>
    obtain ⟨he, hargs⟩ := Bool.and_eq_true_iff.1 hfit
    exact forall_mem_cons.2 ⟨dollar_not_mem_of_fits he, ih hargs⟩

end Glyph

open Glyph

/-- Can the reference be written in the parentheses that its source has, if the references in it
can? In the name of a variable, an equals sign after a colon would make a substitution of it. -/
def Reference.printable : Reference → Bool
  | .variable l n => (Reference.variable l n).automatic || fits .round [] [] n.glyphs &&
      !([[':'], ['=']].isSublist (shown .round [] 0 0 n.glyphs))
  | .substitution _ n p s =>
      fits .round [':'] [[':']] n.glyphs && fits .round ['='] [['=']] p.glyphs &&
        fits .round [] [] s.glyphs
  | .call l fn args => argsFit (Reference.call l fn args).brace fn 0 args

/-- A reference that was read between some parentheses is spelled between those that it is written
in. -/
theorem Reference.Spelled.legible (h : r.Spelled) (hprintable : r.printable = true) :
    r.Legible := by
  obtain ⟨b, h⟩ := h
  rcases r with ⟨l, n⟩ | ⟨l, n, p, s⟩ | ⟨l, fn, args⟩
  · rw [printable, Bool.or_eq_true, Bool.and_eq_true] at hprintable
    refine hprintable.imp_right fun hfit => ?_
    obtain ⟨hfits, hshown⟩ := hfit
    have hname : IsName b n.glyphs := h
    have hsub : ¬ [[':'], ['=']].Sublist (shown .round [] 0 0 n.glyphs) := by
      rw [← isSublist_iff_sublist, Bool.not_eq_true]
      exact Bool.not_eq_eq_eq_not.1 hshown
    refine ⟨((hname.passes.of_fits hfits).passesName hsub).isName hname.free, ?_⟩
    exact forall_mem_singleton.2 (dollar_not_mem_of_fits hfits)
  · rw [printable, Bool.and_eq_true, Bool.and_eq_true] at hprintable
    obtain ⟨⟨hname, hpattern⟩, hreplacement⟩ := hprintable
    have hspelled : IsSubstitution b n.glyphs p.glyphs s.glyphs := h
    refine .inr
      ⟨⟨hspelled.free, hspelled.name.of_fits hname, hspelled.colon,
        hspelled.pattern.of_fits hpattern,
      hspelled.replacement.of_fits hreplacement⟩, ?_⟩
    simpa [args] using
      ⟨dollar_not_mem_of_fits hname, dollar_not_mem_of_fits hpattern,
        dollar_not_mem_of_fits hreplacement⟩
  · have hcall : IsCall b fn args := h
    refine .inr ⟨⟨hcall.takes, hcall.passes.of_argsFit hprintable, hcall.ink, hcall.trimmed⟩, ?_⟩
    exact dollar_not_mem_of_argsFit hprintable

end Rebuild
