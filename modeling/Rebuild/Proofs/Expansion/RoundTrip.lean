import Rebuild.Proofs.Expansion.Exchange
/-!
# Printed expansions

Outside of references, the text of an expansion is read as it stands, with a doubled dollar sign for
a dollar sign; so the source of an expansion that was read is read as the expansion again, if its
references can be written in the parentheses that their sources have (`parseText_source`). The two
are equal up to locations, and the comparison of expansions finds them the same (`sameTo_of_twin`).
-/

namespace Rebuild

open List

namespace Glyph

/-- The text of glyphs outside of references. -/
@[simp] def escape : List Glyph → Text
  | [] => []
  | .char c :: gs => (if c = '$' then ['$', '$'] else [c]) ++ escape gs
  | .ref r :: gs => r.source ++ escape gs

theorem escape_append (gs hs : List Glyph) : escape (gs ++ hs) = escape gs ++ escape hs := by
  induction gs with
  | nil => rfl
  | cons g gs ih => cases g <;> simp [escape, ih]

theorem escape_ofText (s : Text) : escape (ofText s) = escapeDollars s := by
  induction s with
  | nil => rfl
  | cons c s ih =>
    rw [ofText_cons, escape, ih]
    simp [escapeDollars]

/-- What stands before the first dollar sign of the text is text. -/
theorem exists_of_escape {gs : List Glyph} {w rest : Text} (hw : '$' ∉ w)
    (h : escape gs = w ++ rest) :
    ∃ hs, gs = ofText w ++ hs ∧ rest = escape hs := by
  induction w generalizing gs with
  | nil => exact ⟨gs, rfl, h.symm⟩
  | cons c w ih =>
    rw [mem_cons, not_or] at hw
    rcases gs with _ | ⟨x | r, gs⟩
    · cases h
    · by_cases hx : x = '$'
      · simp only [escape, hx, if_true, cons_append, List.cons.injEq] at h
        exact absurd h.1 hw.1
      · simp only [escape, hx, if_false, cons_append, nil_append, List.cons.injEq] at h
        obtain ⟨rfl, h⟩ := h
        obtain ⟨hs, rfl, hrest⟩ := ih hw.2 h
        exact ⟨hs, rfl, hrest⟩
    · obtain ⟨u, hu⟩ := r.exists_source
      simp only [escape, hu, cons_append, List.cons.injEq] at h
      exact absurd h.1 hw.1

end Glyph

open Glyph

namespace Expansion

theorem sourceItems_eq_escape (xs : List Item) : sourceItems true xs = escape (Item.glyphs xs) := by
  induction xs with
  | nil => rfl
  | cons i xs ih => cases i <;> simp [sourceItems, escape_append, escape_ofText, escape, ih]

theorem source_eq_escape (e : Expansion) : e.source true false = escape e.glyphs := by
  cases e with
  | literal s l => simp [source, glyphs, items, Item.glyphs_ofText, escape_ofText]
  | sequence xs l => exact sourceItems_eq_escape xs

/-! ## Reading outside of references -/

section Outside

variable {st : Reader} {d : Line} {z : Text} {gs : List Glyph}

/-- A doubled dollar sign is read as one. -/
theorem leads_dollar (hst : st.Twin st) {stops : List Text} :
    Leads d stops st ['$', '$'] (st.addText ['$']) z :=
  .of_eq fun _ _ => ⟨true, _, hst.addText ['$'], resume_reference rfl⟩

theorem frames_gather (hframes : st.frames = []) (xs : List Item) : (st.gather xs).frames = [] := by
  unfold Reader.gather
  rw [hframes]

theorem leads_plain (gs : List Glyph) (d : Line) (hst : st.Twin st)
    (hframes : st.frames = []) {c : Char}
    (hc : c ≠ '$') : ∃ w hs, w ≠ [] ∧ .char c :: gs = ofText w ++ hs ∧
      Leads d [] st (escape (ofText w)) (st.gather ((ofText w).map Glyph.item)) (escape hs) := by
  have hescape : escape (.char c :: gs) = c :: escape gs := by simp [escape, hc]
  cases ht : Token.match? (c :: escape gs) with
  | none =>
    refine ⟨[c], gs, by simp, rfl, ?_⟩
    rw [ofText_cons, escape, if_neg hc]
    exact leads_char hst ht
  | some t =>
    have hhead : (c :: escape gs).head? ≠ some '$' := by simpa using hc
    have hdollar := Token.dollar_not_mem ht hhead
    have hne := Token.text_ne_nil_of_match? ht
    obtain ⟨rest, hrest⟩ := Token.exists_append_of_match? ht
    obtain ⟨hs, hsplit, rfl⟩ := exists_of_escape hdollar (hescape.trans hrest)
    refine ⟨t.text, hs, hne, hsplit, ?_⟩
    have hno : t.text ∉ st.tokens [] := by
      unfold Reader.tokens
      rw [hframes]
      intro hmem
      rw [nil_append, mem_singleton] at hmem
      exact hdollar (hmem ▸ mem_cons_self)
    have hleads := leads_token (d := d) hst (hrest ▸ ht) (Token.isReference_eq_false ht hc) hno
    rw [escape_ofText, escapeDollars_eq_self hdollar]
    refine hleads.congr ?_
    unfold Reader.addText
    rw [if_neg (mt List.isEmpty_iff.1 hne), Reader.add_eq_gather]
    exact hst.gather (twinItems_chars t.text)

/-- **The text of glyphs is gathered as these glyphs** outside of references. -/
theorem leads_escape (hst : st.Twin st) (hframes : st.frames = [])
    (hgs : ∀ r, .ref r ∈ gs → r.Normal ∧ r.Rereads) :
    Leads d [] st (escape gs) (st.gather (gs.map Glyph.item)) [] := by
  induction gs using pieces_induction generalizing st with
  | nil =>
    rw [map_nil, Reader.gather_nil]
    exact .of_twin hst
  | cons g gs ih =>
    -- one stretch of glyphs is gathered after the other
    have hstep {x y : List Glyph} (hx : x ≠ []) (hsplit : g :: gs = x ++ y)
        (hleads : Leads d [] st (escape x) (st.gather (x.map Glyph.item)) (escape y)) :
        Leads d [] st (escape (g :: gs)) (st.gather ((g :: gs).map Glyph.item)) [] := by
      have hnormal : NormalItems (x.map Glyph.item) :=
        normalItems_map_item fun r hr => (hgs r (hsplit ▸ mem_append_left y hr)).1
      have hrest := ih x y hsplit hx (hst.gather hnormal.twin) (frames_gather hframes _)
        fun r hr => hgs r (hsplit ▸ mem_append_right x hr)
      rw [hsplit, escape_append, map_append, ← Reader.gather_gather]
      exact Leads.trans (by rwa [append_nil]) hrest
    rcases g with c | r
    · by_cases hc : c = '$'
      · subst hc
        exact hstep (x := [.char '$']) (by simp) rfl (leads_dollar hst)
      · obtain ⟨w, hs, hw, hsplit, hleads⟩ := leads_plain gs d hst hframes hc
        exact hstep (by simpa [ofText] using hw) hsplit hleads
    · refine hstep (x := [.ref r]) (by simp) rfl ?_
      rw [escape, escape, append_nil]
      exact (hgs r mem_cons_self).2 d [] st (escape gs) hst

end Outside

/-! ## Comparing twins -/

section Same

variable {e e' : Expansion} {r r' : Reference} {n : Nat}

theorem depthItems_trimLeft (xs : List Item) : depthItems (Item.trimLeft xs) = depthItems xs := by
  fun_induction Item.trimLeft xs with
  | case1 s rest hnil ih => exact ih
  | case2 s rest hne => rfl
  | case3 items hnot => rfl

theorem depth_trimLeft (e : Expansion) : e.trimLeft.depth = e.depth := by
  cases e with
  | literal s l => rfl
  | sequence xs l => exact depthItems_trimLeft xs

variable {same : Expansion → Expansion → Except Error Bool} {as bs : List Expansion}
  {xs : List Item}

theorem forall₂_twin (has : ∀ a ∈ as, a.Normal) (hbs : ∀ b ∈ bs, b.Normal)
    (h : unplacedArgs as = unplacedArgs bs) : List.Forall₂ Twin as bs := by
  induction as generalizing bs with
  | nil =>
    cases bs with
    | nil => exact .nil
    | cons b bs => cases h
  | cons a as ih =>
    cases bs with
    | nil => cases h
    | cons b bs =>
      obtain ⟨ha, has⟩ := forall_mem_cons.1 has
      obtain ⟨hb, hbs⟩ := forall_mem_cons.1 hbs
      obtain ⟨hab, h⟩ := List.cons.inj h
      exact .cons ⟨ha, hb, hab⟩ (ih has hbs h)

theorem sameArgs_of_twin (h : List.Forall₂ Twin as bs)
    (hsame : ∀ a ∈ as, ∀ b, Twin a b → same a b = .ok true) : sameArgs same as bs = .ok true := by
  induction h with
  | nil => rfl
  | @cons a b as bs hab _ ih =>
    obtain ⟨ha, hsame⟩ := forall_mem_cons.1 hsame
    rw [sameArgs, ha b hab]
    exact ih hsame

theorem sameCall_of_twin (h : List.Forall₂ Twin as bs)
    (hsame : ∀ a ∈ as, ∀ b b', Twin b b' → b.depth ≤ a.depth → same b b' = .ok true) :
    sameCall same as bs = .ok true := by
  unfold sameCall
  rw [if_neg (by simp [h.length_eq])]
  cases h with
  | nil => rfl
  | @cons a b as bs hab h =>
    dsimp only
    rw [hab.left.trimLeft?, hab.right.trimLeft?]
    refine sameArgs_of_twin (.cons hab.trimLeft h)
      (forall_mem_cons.2 ⟨fun b hb => ?_, fun a' ha' b hb => ?_⟩)
    · exact hsame a mem_cons_self _ b hb (depth_trimLeft a).le
    · exact hsame a' (mem_cons_of_mem a ha') a' b hb le_rfl

/-- Twin references are the same for a comparison of expansions that knows twins at lesser
depths. -/
theorem sameRef_of_twin (h : TwinRef r r')
    (hsame : ∀ a b, Twin a b → a.depth < depthRef r → same a b = .ok true) :
    sameRef same r r' = .ok true := by
  obtain ⟨hr, hr', h⟩ := h
  rcases r with ⟨l, n⟩ | ⟨l, n, p, s⟩ | ⟨l, fn, args⟩ <;>
    rcases r' with ⟨l', n'⟩ | ⟨l', n', p', s'⟩ | ⟨l', fn', args'⟩ <;>
    simp only [unplacedRef, Reference.variable.injEq, Reference.substitution.injEq,
      Reference.call.injEq, true_and,
      reduceCtorEq] at h
  · exact hsame n n' ⟨normal_variable.1 hr, normal_variable.1 hr', h⟩ (Nat.lt_succ_self _)
  · obtain ⟨hn, hp, hs⟩ := normal_substitution.1 hr
    obtain ⟨hn', hp', hs'⟩ := normal_substitution.1 hr'
    refine sameArgs_of_twin
      (.cons ⟨hn, hn', h.1⟩ (.cons ⟨hp, hp', h.2.1⟩ (.cons ⟨hs, hs', h.2.2⟩ .nil))) ?_
    intro a ha b hb
    refine hsame a b hb ?_
    simp only [mem_cons, not_mem_nil, or_false] at ha
    rw [depthRef]
    rcases ha with rfl | rfl | rfl <;> omega
  · obtain ⟨rfl, h⟩ := h
    rw [sameRef, if_pos rfl]
    refine sameCall_of_twin (forall₂_twin (normal_call.1 hr) (normal_call.1 hr') h)
      fun a ha b b' hb hle => ?_
    exact hsame b b' hb (Nat.lt_succ_of_le (hle.trans (depth_le_depthArgs ha)))

theorem sameSteps_of_twin {ys : List Item} (hxs : NormalItems xs) (hys : NormalItems ys)
    (h : unplacedItems xs = unplacedItems ys)
    (hsame : ∀ r r', .ref r ∈ xs → TwinRef r r' → sameRef same r r' = .ok true) :
    sameSteps (sameItem same) xs.length xs ys = .ok true := by
  induction xs generalizing ys with
  | nil => rfl
  | cons i xs ih =>
    have hxs' : NormalItems xs := fun r hr => hxs r (mem_cons_of_mem i hr)
    have hsame' : ∀ r r', .ref r ∈ xs → TwinRef r r' → sameRef same r r' = .ok true :=
      fun r r' hr => hsame r r' (mem_cons_of_mem i hr)
    rcases ys with _ | ⟨j, ys⟩
    · cases i <;> cases h
    have hys' : NormalItems ys := fun r hr => hys r (mem_cons_of_mem j hr)
    rcases i with s | r <;> rcases j with t | r' <;>
      simp only [unplacedItems, List.cons.injEq, Item.text.injEq, Item.ref.injEq, reduceCtorEq,
        false_and] at h
    · have hitem : sameItem same (.text s) (.text t) = .ok true := by simp [sameItem, h.1]
      rw [length_cons, sameSteps, hitem]
      exact ih hxs' hys' h.2 hsame'
    · have htwin : TwinRef r r' := ⟨hxs r mem_cons_self, hys r' mem_cons_self, h.1⟩
      have hitem : sameItem same (.ref r) (.ref r') = .ok true := hsame r r' mem_cons_self htwin
      rw [length_cons, sameSteps, hitem]
      exact ih hxs' hys' h.2 hsame'

theorem length_unplacedItems (xs : List Item) : (unplacedItems xs).length = xs.length := by
  induction xs with
  | nil => rfl
  | cons i xs ih => cases i <;> simp [unplacedItems, ih]

theorem depthItems_pos (h : Item.hasRef xs = true) : 0 < depthItems xs := by
  obtain ⟨r, hr⟩ := hasRef_iff.1 h
  refine Nat.lt_of_lt_of_le ?_ (depthRef_le_depthItems hr)
  cases r <;> exact Nat.succ_pos _

/-- **Expansions in normal form that are equal but for their locations are the same** for the
comparison. -/
theorem sameTo_of_twin (h : Twin e e') (hdepth : e.depth ≤ n) : sameTo n e e' = .ok true := by
  -- the comparison goes one level down at each reference, and may go as far as the left side is
  -- deep
  induction n using Nat.strongRecOn generalizing e e' with
  | _ n ih =>
    obtain ⟨he, he', h⟩ := h
    rcases e with ⟨s, l⟩ | ⟨xs, l⟩ <;> rcases e' with ⟨t, l'⟩ | ⟨ys, l'⟩ <;>
      simp only [unplaced, literal.injEq, sequence.injEq, and_true, reduceCtorEq] at h
    · simp [sameTo, h]
    · obtain ⟨⟨href, -⟩, hxs⟩ := normal_sequence.1 he
      have hys := (normal_sequence.1 he').2
      have hlength : xs.length = ys.length := by
        rw [← length_unplacedItems, h, length_unplacedItems]
      have hpos : 0 < n := (depthItems_pos href).trans_le hdepth
      obtain ⟨n, rfl⟩ := Nat.exists_eq_succ_of_ne_zero hpos.ne'
      rw [sameTo, he.finish, he'.finish]
      dsimp only
      rw [if_neg (by simp [hlength])]
      refine sameSteps_of_twin hxs hys h fun r r' hr htwin => sameRef_of_twin htwin
        fun a b hab hlt => ?_
      have hle : depthRef r ≤ n + 1 := (depthRef_le_depthItems hr).trans hdepth
      exact ih n (Nat.lt_succ_self n) hab (by omega)

theorem Twin.same_eq (h : Twin e e') : e.same e' = .ok true := sameTo_of_twin h le_rfl

end Same

/-! ## Printing and reading -/

/-- Can all references of the expansion be written in the parentheses that their sources have? -/
def printable (e : Expansion) : Bool := e.within.all Reference.printable

/-- The source of an expansion is read as the expansion if its references are read from theirs. -/
theorem parseText_of_rereads {e : Expansion} (he : e.Normal)
    (hrefs : ∀ r, .ref r ∈ e.glyphs → r.Rereads)
    (path : Text) (ns : List Notice) :
    ∃ e' ns', Gives (parseText (e.source true false) path) ns e' ns' ∧ Twin e' e := by
  let d := Line.ofText (escape e.glyphs) path
  let xs := e.glyphs.map Glyph.item
  have hrefs' : ∀ r, .ref r ∈ e.glyphs → r.Normal ∧ r.Rereads :=
    fun r hr => ⟨normal_of_mem_glyphs he hr, hrefs r hr⟩
  have hxs : NormalItems xs := normalItems_map_item fun r hr => normal_of_mem_glyphs he hr
  have hleads : Leads d [] ⟨[], []⟩ (escape e.glyphs) (Reader.gather ⟨[], []⟩ xs) [] :=
    leads_escape twin_start rfl hrefs'
  have hend : Gives
    (resume d .data [] true (Reader.gather ⟨[], []⟩ xs) [] (0 + (escape e.glyphs).length) []) ns
      ⟨ofItems xs (some d.loc), none⟩ ns := by
    unfold resume
    rw [Lexeme.scan, readLexemes_nil]
    simp [Reader.gather, Reader.addText, Reader.finish, Mode.flat_nil]
  obtain ⟨read, ns', hgives, htwin⟩ := (hleads 0 le_rfl).gives_left hend ns
  rw [append_nil] at hgives
  have hparse : parse d 0 [] .data = resume d .data [] true ⟨[], []⟩ [] 0 (escape e.glyphs) :=
    parse_eq_resume rfl
  refine ⟨read.exp, ns', ?_, htwin.exp.trans ((hxs.twin.ofItems _ none).trans he.twin_glyphs)⟩
  rw [source_eq_escape]
  exact gives_bind.2 ⟨read, ns', hparse ▸ hgives, rfl⟩

/-- **Printing keeps the meaning of an expansion that was read**, wherever and up to whatever mark,
if each reference in it fits into the parentheses that it is printed in: the source is read again,
as an expansion with the same texts, functions and arguments at every depth, and the comparison
finds the two the same, either way. -/
theorem parseText_source (d : Line) (o : Nat) (stops : List Text) (ns ns' : List Notice)
    (read : Read)
    (h : Gives (parse d o stops .data) ns read ns') (hprintable : read.exp.printable = true)
    (path : Text)
    (ns₁ : List Notice) : ∃ e ns₂, Gives (parseText (read.exp.source true false) path) ns₁ e ns₂ ∧
      e.unplaced = read.exp.unplaced ∧ read.exp.same e = .ok true ∧ e.same read.exp = .ok true := by
  obtain ⟨_, _, -, htwin⟩ := (parse_alike_self d o stops .data).gives h ns
  have hnormal : read.exp.Normal := htwin.exp.left
  have hlegible : ∀ r ∈ read.exp.within, r.Legible := fun r hr =>
    (parse_spelled h r hr).legible (all_eq_true.1 hprintable r hr)
  have hrefs : ∀ r, .ref r ∈ read.exp.glyphs → r.Rereads := fun r hr =>
    rereads_of_legible (fun r' hr' => hlegible r' (mem_within.2 ⟨r, hr, hr'⟩))
      (normal_of_mem_glyphs hnormal hr)
  obtain ⟨e, ns₂, hgives, hsame⟩ := parseText_of_rereads hnormal hrefs path ns₁
  exact ⟨e, ns₂, hgives, hsame.same, hsame.symm.same_eq, hsame.same_eq⟩

/-- Doubled dollar signs outside of references, and references one in the other: one is written in
parentheses of the other kind, and one keeps its kind for the parenthesis in its text. -/
theorem parseText_source_nested :
    let t : Text := "a$$ $\x7bsubst $(x:.c=$\x7bo\x7d),$\x7bif $@,(b\x7d,$\x7bc:\x7bd\x7d\x7d\x7d:"
    let t' : Text := "a$$ $\x7bsubst $(x:.c=$(o)),$\x7bif $@,(b\x7d,$(c:\x7bd\x7d)\x7d:"
    ∃ read ns e ns', Gives (parse (Line.ofText t "f") 0 [] .data) [] read ns ∧
    read.exp.source true false = t' ∧
      Gives (parseText t' "g") [] e ns' ∧ e.unplaced = read.exp.unplaced ∧
      read.exp.same e = .ok true := by
  intro t t'
  have hread : ∃ read ns, Gives (parse (Line.ofText t "f") 0 [] .data) [] read ns ∧
      (read.exp.printable && read.exp.source true false == t') = true := exists_gives
        (by decide +kernel)
  obtain ⟨read, ns, hread, hsource⟩ := hread
  obtain ⟨hprintable, hsource⟩ := Bool.and_eq_true_iff.1 hsource
  obtain ⟨e, ns', hgives, hsame, heq, -⟩ := parseText_source _ 0 [] _ _ _ hread hprintable "g" []
  exact ⟨read, ns, e, ns', hread, by simpa using hsource,
    (by simpa using hsource : _ = t') ▸ hgives, hsame, heq⟩

/-- The parts of a reference are written without doubled dollar signs, and in parentheses of a kind
that they may not fit: the source is read as another expansion, or not at all. -/
theorem source_differs :
    (∀ t ∈ (["$(a$$b)", "$\x7ba)\x7d", "$\x7ba\x7b:\x7db=c\x7d"] : List Text),
      ∃ e ns e' ns', Gives (parseText t "f") [] e ns ∧
      Gives (parseText (e.source true false) "f") [] e' ns' ∧
        e.same e' = .ok false) ∧
    ∃ e ns error ns', Gives (parseText "$(a$$)" "f") [] e ns ∧
      Fails (parseText (e.source true false) "f") [] error ns' := by
  constructor
  · intro t ht
    have hread : ∃ e ns, Gives (parseText t "f") [] e ns ∧
        (((parseText (e.source true false) "f").run []).1.toOption.any fun e' =>
          (e.same e').toOption == some false) = true := by
      simp only [mem_cons, not_mem_nil, or_false] at ht
      rcases ht with rfl | rfl | rfl <;> exact exists_gives (by decide +kernel)
    obtain ⟨e, ns, hread, hagain⟩ := hread
    obtain ⟨e', ns', hagain, hsame⟩ := exists_gives hagain
    refine ⟨e, ns, e', ns', hread, hagain, ?_⟩
    cases hcase : e.same e' with
    | error => simp [hcase, Except.toOption] at hsame
    | ok => simpa [hcase, Except.toOption] using hsame
  · have hread : ∃ e ns, Gives (parseText "$(a$$)" "f") [] e ns ∧
        ((parseText (e.source true false) "f").run []).1.toOption.isNone = true := exists_gives
          (by decide +kernel)
    obtain ⟨e, ns, hread, hagain⟩ := hread
    obtain ⟨e', ns', h⟩ | ⟨error, ns', h⟩ := gives_or_fails (parseText (e.source true false) "f") []
    · rw [h] at hagain
      cases hagain
    · exact ⟨e, ns, error, ns', hread, h⟩

end Expansion

end Rebuild
