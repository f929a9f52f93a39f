import Rebuild.Proofs.Expansion.Spelling
/-!
# Reading what was printed

The source of a reference writes its parts between parentheses, and the parts of these parts in the
same way. If the reader passes over the glyphs of each part there (`Reference.Legible`), then
reading the source leads to the state in which the reference was gathered (`Reference.Rereads`).
Reading is followed from state to state (`Leads`), and states count up to locations and to how texts
are cut.
-/

namespace Rebuild

open List Text Token Reference

variable {z z' w : Text} {xs ys : List Item} {e : Expansion} {b : Brace} {n m : Nat} {d : Line}
  {stops : List Text} {c : Char} {t : Token} {gs : List Glyph} {fn : Builtin} {r : Reference}
  {args : List Expansion}

namespace Glyph

/-- The glyphs as text, each reference as its source. -/
def spell : List Glyph → Text
  | [] => []
  | .char c :: gs => c :: spell gs
  | .ref r :: gs => r.source ++ spell gs

@[simp] theorem spell_nil : spell [] = [] := rfl

@[simp] theorem spell_char (c : Char) (gs : List Glyph) :
    spell (.char c :: gs) = c :: spell gs := rfl

@[simp] theorem spell_ref (r : Reference) (gs : List Glyph) :
    spell (.ref r :: gs) = r.source ++ spell gs := rfl

@[simp] theorem spell_append (gs hs : List Glyph) : spell (gs ++ hs) = spell gs ++ spell hs := by
  induction gs with
  | nil => rfl
  | cons g gs ih => cases g <;> simp [ih]

@[simp] theorem spell_ofText (s : Text) : spell (ofText s) = s := by
  induction s with
  | nil => rfl
  | cons c s ih => simp [ih]

end Glyph

open Glyph

theorem sourceItems_eq_spell (xs : List Item) : sourceItems false xs = spell (Item.glyphs xs) := by
  induction xs with
  | nil => rfl
  | cons i xs ih => cases i <;> simp [sourceItems, ih]

theorem Expansion.source_eq_spell (e : Expansion) : e.source false false = spell e.glyphs := by
  cases e with
  | literal s l => simp [source, glyphs, items, Item.glyphs_ofText]
  | sequence xs l => exact sourceItems_eq_spell xs

/-- Every source of a reference begins with a dollar sign. -/
theorem Reference.exists_source (r : Reference) : ∃ w, r.source = '$' :: w := by
  rw [← head?_eq_some_iff]
  rcases r with ⟨l, ⟨s, l'⟩ | ⟨xs, l'⟩⟩ | ⟨l, n, p, s⟩ | ⟨l, fn, args⟩
  · rw [source, variableSource]
    split <;> rfl
  · simp [source]
  · simp [source]
  · simp [source, callSource]

theorem Token.match?_spell {p : Text} (hp : p ≠ []) (hdollar : p.head? ≠ some '$')
    (h : lookahead z = lookahead z') (hz : lookahead z ≠ some '\\') (gs : List Glyph) :
    match? (p ++ (skeleton gs ++ z)) = match? (p ++ (spell gs ++ z')) := by
  induction gs generalizing p with
  | nil => exact match?_append_congr hp hdollar h hz
  | cons g gs ih =>
    cases g with
    | char c =>
      have hhead : (p ++ [c]).head? ≠ some '$' := by
        obtain ⟨a, p, rfl⟩ := exists_cons_of_ne_nil hp
        exact hdollar
      simpa using ih (by simp) hhead
    | ref r =>
      obtain ⟨w, hw⟩ := r.exists_source
      rw [skeleton_ref, spell_ref, hw]
      exact match?_append_congr hp hdollar rfl nofun

namespace Item

/-- A normal form is joined already. -/
theorem merge_eq_self (h : Separate xs) : merge xs = xs := by
  induction xs with
  | nil => rfl
  | cons i xs ih =>
    cases i with
    | ref r => rw [merge, ih h.tail]
    | text s =>
      rw [merge, ih h.tail]
      rcases xs with _ | ⟨t | r, xs⟩
      · have hs : s ≠ [] := h.ink s mem_cons_self
        simp [hs]
      · have hapart := (isChain_cons_cons.1 h.apart).1
        exact absurd ⟨rfl, rfl⟩ hapart
      · have hs : s ≠ [] := h.ink s mem_cons_self
        simp [hs]

end Item

namespace Expansion

/-- An expansion in normal form is left as it is. -/
theorem Normal.finish (h : e.Normal) : e.finish = e := by
  cases e with
  | literal s l => rfl
  | sequence xs l =>
    obtain ⟨⟨href, hseparate⟩, -⟩ := normal_sequence.1 h
    rw [Expansion.finish, ofItems, href, Item.merge_eq_self hseparate]
    rfl

/-- **An expansion in normal form is put together again from its glyphs.** -/
theorem Normal.twin_glyphs (h : e.Normal) : Twin (ofItems (e.glyphs.map Glyph.item) none) e := by
  have hitems : ofItems (e.glyphs.map Glyph.item) none = ofItems e.items none :=
    ofItems_congr (Item.glyphs_map_item _) none
  cases e with
  | literal s l =>
    have hliteral : ofItems (literal s l).items none = .literal s none := by
      cases s <;> simp [items, Item.ofText, ofItems, Item.hasRef, Item.textOf]
    rw [hitems, hliteral]
    exact twin_literal s none l
  | sequence xs l =>
    have hnormal : Normal (.sequence xs none) := normal_sequence.2 (normal_sequence.1 h)
    have hsequence : ofItems (sequence xs l).items none = .sequence xs none := hnormal.finish
    rw [hitems, hsequence]
    exact ⟨hnormal, h, rfl⟩

/-! ## States with an open reference -/

/-- The state in which a reference was opened, with items gathered for its current part. -/
def Reader.opened (st : Reader) (b : Brace) (n : Nat) (role : Role) (xs : List Item) : Reader :=
  { st with frames := ⟨b, n, xs.reverse, role⟩ :: st.frames }

section Steps

variable {st st' st'' : Reader} {role role' : Role}
  {u v : Text} {fresh : Bool} {o : Nat}

theorem Reader.opened_add (i : Item) :
    (st.opened b n role xs).add i = st.opened b n role (xs ++ [i]) := by
  simp [Reader.opened, Reader.add]

theorem Reader.Twin.opened (h : st.Twin st') (hrole : role.Twin role') (hxs : TwinItems xs ys)
    (b : Brace) (n : Nat) :
    (st.opened b n role xs).Twin (st'.opened b n role' ys) :=
  ⟨h.outer, .cons ⟨rfl, rfl, by simpa using hxs, hrole⟩ h.frames⟩

/-- Reading `u` leads from one state to the other, if `z` comes after it: up to locations, what is
read from there on is the same. -/
def Leads (d : Line) (stops : List Text) (st : Reader) (u : Text) (st' : Reader) (z : Text) :
    Prop :=
  ∀ o, d.start ≤ o →
  EndAlike (IndexOnly True) (Read.Twin d d) (resume d .data stops true st [] o (u ++ z))
    (resume d .data stops true st' [] (o + u.length) z)

theorem Leads.trans (h : Leads d stops st u st' (v ++ z)) (h' : Leads d stops st' v st'' z) :
    Leads d stops st (u ++ v) st'' z := by
  intro o ho
  rw [append_assoc, length_append, ← Nat.add_assoc]
  exact (h o ho).trans (h' (o + u.length) (Nat.le_add_right_of_le ho)) fun _ _ _ => Read.Twin.trans

theorem resume_twin (h : st.Twin st') (ho : d.start ≤ o) (fresh fresh' : Bool) (z : Text) :
    EndAlike (IndexOnly True) (Read.Twin d d) (resume d .data stops fresh st [] o z)
      (resume d .data stops fresh' st' [] o z) :=
  resume_alike ho (fun w => h.addText w) fresh fresh' z

theorem Leads.of_twin (h : st.Twin st') :
    Leads d stops st [] st' z := fun _ ho => resume_twin h ho true true z

/-- What reading does exactly, up to a twin of the state. -/
theorem Leads.of_eq (h : ∀ o, d.start ≤ o → ∃ fresh st'', st''.Twin st' ∧
      resume d .data stops true st [] o (u ++ z) = resume d .data stops fresh st'' []
        (o + u.length) z) :
    Leads d stops st u st' z := by
  intro o ho
  obtain ⟨fresh, st'', htwin, heq⟩ := h o ho
  rw [heq]
  exact resume_twin htwin (Nat.le_add_right_of_le ho) fresh true z

theorem Leads.congr (h : Leads d stops st u st' z) (htwin : st'.Twin st'') :
    Leads d stops st u st'' z := by
  have hend : Leads d stops st' [] st'' z := .of_twin htwin
  have h' := Leads.trans h hend
  rwa [append_nil] at h'

/-- A character at which no token begins is gathered. -/
theorem leads_char (hst : st.Twin st) (hc : match? (c :: z) = none) :
    Leads d stops st [c] (st.addText [c]) z := by
  intro o ho
  show EndAlike _ _ (resume d .data stops true st [] o (c :: z)) _
  rw [resume_shift hc]
  exact resume_alike (Nat.le_succ_of_le ho) (fun w => hst.addText_addText [c] w) true true z

/-- A token that was not asked for is gathered. -/
theorem leads_token (hst : st.Twin st) (ht : match? (t.text ++ z) = some t)
    (hmark : t.isReference = false)
    (hno : t.text ∉ st.tokens stops) : Leads d stops st t.text (st.addText t.text) z := by
  refine .of_eq fun o ho => ⟨false, _, hst.addText t.text, ?_⟩
  rw [resume_skipped ht hmark hno]
  rfl

theorem mem_opened_tokens : w ∈ (st.opened b n role xs).tokens stops ↔
    w ∈ [[b.opening], [b.closing], ['$']] ∨ n = 0 ∧ w ∈ role.marks := Frame.mem_tokens

/-- A mark that the reference asks for is taken up. -/
theorem resume_opened (ht : match? (w ++ z) = some (.mark w))
    (hw : w ∈ (st.opened b n role xs).tokens stops) :
    resume d .data stops fresh (st.opened b n role xs) [] o (w ++ z) =
      (st.opened b n role xs).mark ⟨b, n, xs.reverse, role⟩ w >>= fun st' =>
        resume d .data stops true st' [] (o + w.length) z := resume_mark rfl ht hw

end Steps

end Expansion

open Expansion

/-- In every state, reading the source of the reference is gathering the reference. -/
def Reference.Rereads (r : Reference) : Prop :=
  ∀ (d : Line) (stops : List Text) (st : Reader) (z : Text), st.Twin st →
  Leads d stops st r.source (st.add (.ref r)) z

/-- The text of the glyph is read as the glyph inside of a reference. -/
def Glyph.Rereads : Glyph → Prop
  | .char c => c ≠ '$'
  | .ref r => r.Normal ∧ r.Rereads

namespace Expansion

section Inside

variable {st : Reader} {role : Role}

theorem NormalItems.twin (h : NormalItems xs) : TwinItems xs xs := ⟨h, h, rfl⟩

theorem NormalItems.concat_text (h : NormalItems xs) (s : Text) : NormalItems (xs ++ [.text s]) :=
  normalItems_append.2 ⟨h, normalItems_nil.cons_text s⟩

theorem twinItems_chars (s : Text) : TwinItems [.text s] ((ofText s).map Glyph.item) := by
  have hplain : NormalItems ((ofText s).map Glyph.item) ∧
      unplacedItems ((ofText s).map Glyph.item) = (ofText s).map Glyph.item := by
    induction s with
    | nil => exact ⟨normalItems_nil, rfl⟩
    | cons c s ih => exact ⟨ih.1.cons_text [c], congrArg (Item.text [c] :: ·) ih.2⟩
  refine ⟨normalItems_nil.cons_text s, hplain.1, ?_⟩
  rw [hplain.2, Item.glyphs_map_item]
  simp [unplacedItems]

variable (hst : st.Twin st) (hrole : role.Twin role)

include hst hrole

/-- A parenthesis is opened inside of the reference. -/
theorem leads_opening (hxs : NormalItems xs) (n : Nat) :
    Leads d stops (st.opened b n role xs) [b.opening]
      (st.opened b (n + 1) role (xs ++ [.text [b.opening]])) z := by
  refine .of_eq fun o ho =>
    ⟨true, _, hst.opened hrole (hxs.concat_text [b.opening]).twin b (n + 1), ?_⟩
  rw [resume_opened (match?_opening b z) (mem_opened_tokens.2 (.inl (by simp))),
    Reader.mark_opening, pure_bind]
  simp [Reader.opened, Reader.setTop]

/-- A parenthesis is closed that was opened inside of the reference. -/
theorem leads_inner (hxs : NormalItems xs) (n : Nat) :
    Leads d stops (st.opened b (n + 1) role xs) [b.closing]
      (st.opened b n role (xs ++ [.text [b.closing]])) z := by
  refine .of_eq fun o ho => ⟨true, _, hst.opened hrole (hxs.concat_text [b.closing]).twin b n, ?_⟩
  rw [resume_opened (match?_closing b z) (mem_opened_tokens.2 (.inl (by simp))),
    Reader.mark_inner rfl, pure_bind]
  simp [Reader.opened, Reader.setTop]

/-- A token that does not matter is gathered as its characters. -/
theorem leads_skipped (found : match? (t.text ++ z) = some t) (mark : t.isReference = false)
    (paren : t.text ≠ [b.opening] ∧ t.text ≠ [b.closing]) (stop : n = 0 → t.text ∉ role.marks)
    (hxs : NormalItems xs) :
    Leads d stops (st.opened b n role xs) t.text
      (st.opened b n role (xs ++ (ofText t.text).map Glyph.item)) z := by
  have hne := text_ne_nil_of_match? found
  have hno : t.text ∉ (st.opened b n role xs).tokens stops := by
    rw [mem_opened_tokens]
    rintro (hmem | ⟨hn, hmem⟩)
    · simp only [mem_cons, not_mem_nil, or_false] at hmem
      rcases hmem with hmem | hmem | hmem
      · exact paren.1 hmem
      · exact paren.2 hmem
      · exact head_ne_dollar found mark (by rw [hmem]; rfl)
    · exact stop hn hmem
  refine (leads_token (hst.opened hrole hxs.twin b n) found mark hno).congr ?_
  unfold Reader.addText
  rw [if_neg (mt List.isEmpty_iff.1 hne), Reader.opened_add]
  exact hst.opened hrole (hxs.twin.append (twinItems_chars t.text)) b n

/-- **The text of glyphs that are passed over is gathered** as these glyphs. -/
theorem leads_passes (h : Passes b role.marks z n gs m) (hz : lookahead z = lookahead z')
    (hslash : lookahead z ≠ some '\\') (hgs : ∀ g ∈ gs, g.Rereads) (hxs : NormalItems xs) :
    Leads d stops (st.opened b n role xs) (spell gs)
      (st.opened b m role (xs ++ gs.map Glyph.item)) z' := by
  induction h generalizing xs with
  | nil =>
    rw [map_nil, append_nil]
    exact .of_twin (hst.opened hrole hxs.twin b _)
  | @char n m c gs free rest ih =>
    obtain ⟨hc, hgs⟩ := forall_mem_cons.1 hgs
    have hhead : [c].head? ≠ some '$' := fun h => hc (Option.some.inj h)
    have hnone : match? (c :: (spell gs ++ z')) = none :=
      (match?_spell (by simp) hhead hz hslash gs).symm.trans free
    have hnow : Leads d stops (st.opened b n role xs) [c] _ (spell gs ++ z') :=
      leads_char (hst.opened hrole hxs.twin b n) hnone
    have hnext := ih hgs (hxs.concat_text [c])
    rw [map_cons, append_cons]
    refine Leads.trans (u := [c]) ?_ hnext
    rw [← Reader.opened_add]
    exact hnow
  | @token n m t gs found mark paren stop rest ih =>
    obtain ⟨-, hgs⟩ := forall_mem_append.1 hgs
    have hne := text_ne_nil_of_match? found
    have hhead : t.text.head? ≠ some '$' := by
      obtain ⟨a, w, hw⟩ := exists_cons_of_ne_nil hne
      simpa [hw] using head_ne_dollar found mark
    have hfound : match? (t.text ++ (spell gs ++ z')) = some t :=
      (match?_spell hne hhead hz hslash gs).symm.trans found
    have hnext := ih hgs (normalItems_append.2 ⟨hxs, (twinItems_chars t.text).right⟩)
    rw [map_append, ← append_assoc, spell_append, spell_ofText]
    exact Leads.trans (leads_skipped hst hrole hfound mark paren stop hxs) hnext
  | opening rest ih =>
    have hnext := ih (forall_mem_cons.1 hgs).2 (hxs.concat_text [b.opening])
    rw [map_cons, append_cons]
    exact Leads.trans (leads_opening hst hrole hxs _) hnext
  | closing rest ih =>
    have hnext := ih (forall_mem_cons.1 hgs).2 (hxs.concat_text [b.closing])
    rw [map_cons, append_cons]
    exact Leads.trans (leads_inner hst hrole hxs _) hnext
  | dollar =>
    exact absurd rfl (forall_mem_cons.1 hgs).1
  | @ref n m r gs rest ih =>
    obtain ⟨⟨hnormal, hreads⟩, hgs⟩ := forall_mem_cons.1 hgs
    have hnow := hreads d stops (st.opened b n role xs) (spell gs ++ z')
      (hst.opened hrole hxs.twin b n)
    have hnext := ih hgs (normalItems_append.2 ⟨hxs, normalItems_nil.cons_ref hnormal⟩)
    rw [map_cons, append_cons]
    refine Leads.trans ?_ hnext
    rw [← Reader.opened_add]
    exact hnow

end Inside

/-! ## How references begin and end -/

section Ends

variable {st : Reader} {role : Role}

theorem leads_enterName (hst : st.Twin st) (hfree : callAfter? z = none) (loc : Location) :
    Leads d stops st ['$', b.opening] (st.opened b 0 (.name loc) []) z := by
  refine .of_eq fun o ho => ⟨true, st.enter b (.name (d.locAt o)), hst.enter .name b, ?_⟩
  refine (resume_reference (match?_reference_iff.2 hfree)).trans ?_
  cases b <;> rfl

theorem leads_enterCall (hst : st.Twin st) (hink : Text.Ink z) (loc : Location) :
    Leads d stops st (['$', b.opening] ++ fn.name ++ [' '])
      (st.opened b 0 (.call loc fn []) []) z := by
  have ht : match? ((call b fn [' ']).text ++ z) = some (.call b fn [' ']) :=
    match?_call_iff.2 ⟨⟨by simp, by decide⟩, hink⟩
  exact .of_eq fun o ho => ⟨true, st.enter b (.call (d.locAt o) fn []), hst.enter (.call .nil) b,
    resume_call ht⟩

/-- A dollar sign and one character are read as a reference. -/
theorem leads_reference (hst : st.Twin st) (ht : match? ('$' :: c :: z) = some (.reference c))
    (hc : c ≠ '$')
    (hopen : Brace.ofOpening? c = none) (l l' : Option Location) :
    Leads d stops st ['$', c] (st.add (.ref (.variable l (.literal [c] l')))) z := by
  refine .of_eq fun o ho => ⟨true, _,
    hst.add (Twin.variable (l := some (d.locAt o))
      (twin_literal [c] (some (d.locAt o).inner) l')).items, ?_⟩
  have hread : (st.addText []).reference (d.locAt o) c =
      st.add (.ref (.variable (some (d.locAt o)) (.literal [c] (some (d.locAt o).inner)))) := by
    unfold Reader.reference
    rw [if_neg (by simpa using hc), hopen]
    rfl
  refine (resume_reference ht).trans ?_
  rw [← hread]
  rfl

theorem leads_automatic (hst : st.Twin st) {s : Text} (hs : s ∈ automaticNames)
    (l l' : Option Location) :
    Leads d stops st ('$' :: s) (st.add (.ref (.variable l (.literal s l')))) z := by
  simp only [automaticNames, mem_cons, not_mem_nil, or_false] at hs
  rcases hs with rfl | rfl | rfl | rfl | rfl | rfl | rfl | rfl <;>
    exact leads_reference hst rfl (by decide) rfl l l'

/-- A parenthesis closes the reference. -/
theorem leads_closing (h : EndAlike (IndexOnly True) Reader.Twin
      ((st.opened b 0 role xs).close ⟨b, 0, xs.reverse, role⟩) (pure (st.add (.ref r)))) :
    Leads d stops (st.opened b 0 role xs) [b.closing] (st.add (.ref r)) z := by
  intro o ho
  rw [resume_opened (match?_closing b z) (mem_opened_tokens.2 (.inl (by simp))),
    Reader.mark_closing rfl,
    ← pure_bind (st.add (.ref r)) fun st' => resume d .data stops true st' []
      (o + [b.closing].length) z]
  exact h.bind fun _ _ h => resume_twin h (Nat.le_add_right_of_le ho) true true z

/-- A mark that the current part waits for leads to the next part. -/
theorem leads_awaited (hst : st.Twin st) (hrole : role.Twin role) (hxs : NormalItems xs)
    (hc : [c] ∈ role.marks)
    (ht : match? ([c] ++ z) = some (.mark [c])) :
    Leads d stops (st.opened b 0 role xs) [c] (st.opened b 0 (role.next xs) []) z := by
  refine .of_eq fun o ho => ⟨true, _, hst.opened (hrole.next hxs.twin) twinItems_nil b 0, ?_⟩
  rw [resume_opened ht (mem_opened_tokens.2 (.inr ⟨rfl, hc⟩)),
    Reader.mark_awaited rfl hc, pure_bind, reverse_reverse]
  rfl

end Ends

/-! ## Whole references -/

/-- Whether a call is found does not depend on what stands in the place of references. -/
theorem callAfter?_spell {x : Char} (hx : Token.Border x) {p : Text}
    (h : callAfter? (p ++ skeleton gs) = none) (z : Text) :
    callAfter? (p ++ (spell gs ++ x :: z)) = none := by
  induction gs generalizing p with
  | nil => exact (callAfter?_append_iff hx p z).2 (by simpa using h)
  | cons g gs ih =>
    cases g with
    | char c => simpa using ih (p := p ++ [c]) (by simpa using h)
    | ref r =>
      obtain ⟨w, hw⟩ := r.exists_source
      rw [spell_ref, hw]
      exact (callAfter?_append_iff border_dollar p _).2
        ((callAfter?_append_iff border_dollar p _).1 h)

theorem normalItems_map_item (h : ∀ r, .ref r ∈ gs → r.Normal) :
    NormalItems (gs.map Glyph.item) := by
  intro r hr
  rw [← Item.ref_mem_glyphs, Item.glyphs_map_item] at hr
  exact h r hr

theorem normalItems_glyphs (h : ∀ g ∈ gs, g.Rereads) : NormalItems (gs.map Glyph.item) :=
  normalItems_map_item fun _ hr => (h _ hr).1

section Whole

variable {st : Reader} {p s : Expansion} {l : Option Location}
  {done : List Expansion} {x y : List Glyph} {loc : Location}

/-! ### Parts and their ends -/

section

variable (hst : st.Twin st)
include hst

theorem leads_closeName (h : Twin (ofItems xs none) e) :
    Leads d stops (st.opened b 0 (.name loc) xs) [b.closing] (st.add (.ref (.variable l e))) z := by
  refine leads_closing ?_
  unfold Reader.close
  rw [reverse_reverse]
  exact .pure (hst.add h.variable.items)

theorem leads_closePattern
    (h : Twin (ofItems (xs ++ [.text [':']] ++ ys) none) e) :
    Leads d stops (st.opened b 0 (.pattern loc xs) ys) [b.closing]
      (st.add (.ref (.variable l e))) z := by
  refine leads_closing ?_
  unfold Reader.close
  rw [reverse_reverse, ← pure_bind () fun _ => pure (st.add (.ref (.variable l e)))]
  exact .bind (R := fun _ _ => True) (fun _ _ => .ok trivial) fun _ _ _ =>
    .pure (hst.add h.variable.items)

theorem leads_closeReplacement {zs : List Item}
    (he : Twin (ofItems xs none) e) (hp : Twin (ofItems ys none) p)
    (hs : Twin (ofItems zs none) s) :
    Leads d stops (st.opened b 0 (.replacement loc xs ys) zs) [b.closing]
      (st.add (.ref (.substitution l e p s)))
      z := by
  refine leads_closing ?_
  unfold Reader.close
  rw [reverse_reverse]
  exact .pure (hst.add (he.substitution hp hs).items)

/-! ### The three kinds -/

/-- **A reference to a variable is read as itself** between parentheses in which its name is read as
such. -/
theorem leads_variable (he : e.Normal) (hglyphs : ∀ g ∈ e.glyphs, g.Rereads)
    (h : IsName b e.glyphs) :
    Leads d stops st (['$', b.opening] ++ (spell e.glyphs ++ [b.closing]))
      (st.add (.ref (.variable l e))) z := by
  have htwin := he.twin_glyphs
  generalize e.glyphs = gs at hglyphs h htwin
  have hnone := lookahead_closing b z
  cases h with
  | whole free passes =>
    have hfree := callAfter?_spell (p := []) (border_closing b) free z
    refine Leads.trans (leads_enterName hst (by simpa using hfree) d.loc) ?_
    exact Leads.trans (leads_passes hst .name passes hnone.symm nofun hglyphs normalItems_nil)
      (leads_closeName hst htwin)
  | @divided x y free left colon right =>
    obtain ⟨hx, hy⟩ := forall_mem_append.1 hglyphs
    obtain ⟨-, hy⟩ := forall_mem_cons.1 hy
    have hname := normalItems_glyphs hx
    have hfree := callAfter?_spell (p := []) border_colon free (spell y ++ ([b.closing] ++ z))
    have hcolon : match? (':' :: (spell y ++ ([b.closing] ++ z))) = some (.mark [':']) := by
      have hsame := match?_spell (p := [':']) (z := []) (by simp) (by simp) hnone.symm nofun y
      rw [append_nil] at hsame
      exact hsame.symm.trans colon
    have hparts : Leads d stops (st.opened b 0 (.name d.loc) [])
      (spell x ++ ([':'] ++ (spell y ++ [b.closing])))
        (st.add (.ref (.variable l e))) z := by
      refine Leads.trans (leads_passes hst .name left rfl nofun hx normalItems_nil) ?_
      refine Leads.trans (leads_awaited hst .name hname mem_cons_self (by simpa using hcolon)) ?_
      refine Leads.trans
        (leads_passes hst (.pattern hname.twin) right hnone.symm nofun hy normalItems_nil) ?_
      exact leads_closePattern hst (by simpa [Glyph.item] using htwin)
    have hspell : spell (x ++ .char ':' :: y) ++ [b.closing] = spell x ++
        ([':'] ++ (spell y ++ [b.closing])) := by
      simp
    rw [hspell]
    exact Leads.trans (leads_enterName hst (by simpa using hfree) d.loc) hparts

/-- **A substitution is read as itself** between parentheses in which its parts are read as such. -/
theorem leads_substitution (he : e.Normal) (hp : p.Normal) (hs : s.Normal)
    (heglyphs : ∀ g ∈ e.glyphs, g.Rereads) (hpglyphs : ∀ g ∈ p.glyphs, g.Rereads)
    (hsglyphs : ∀ g ∈ s.glyphs, g.Rereads) (h : IsSubstitution b e.glyphs p.glyphs s.glyphs) :
    Leads d stops st (['$', b.opening] ++ (spell e.glyphs ++ ([':'] ++ (spell p.glyphs ++ (['='] ++
      (spell s.glyphs ++ [b.closing])))))) (st.add (.ref (.substitution l e p s))) z := by
  have hname := normalItems_glyphs heglyphs
  have hpattern := normalItems_glyphs hpglyphs
  have hfree := callAfter?_spell (p := []) border_colon h.free
    (spell p.glyphs ++ ('=' :: (spell s.glyphs ++ ([b.closing] ++ z))))
  have hcolon : match?
    (':' :: (spell p.glyphs ++ ('=' :: (spell s.glyphs ++ ([b.closing] ++ z))))) =
      some (.mark [':']) := by
    have hz : lookahead ['='] = lookahead ('=' :: (spell s.glyphs ++ ([b.closing] ++ z))) := rfl
    have hsame := match?_spell (p := [':']) (by simp) (by simp) hz nofun p.glyphs
    exact hsame.symm.trans h.colon
  refine Leads.trans (leads_enterName hst (by simpa using hfree) d.loc) ?_
  refine Leads.trans (leads_passes hst .name h.name rfl nofun heglyphs normalItems_nil) ?_
  refine Leads.trans (leads_awaited hst .name hname mem_cons_self (by simpa using hcolon)) ?_
  refine Leads.trans
    (leads_passes hst (.pattern hname.twin) h.pattern rfl nofun hpglyphs normalItems_nil) ?_
  refine Leads.trans (leads_awaited hst (.pattern hname.twin) hpattern mem_cons_self
    (Part.match?_equals _)) ?_
  refine Leads.trans (leads_passes hst (.replacement hname.twin hpattern.twin) h.replacement
    (lookahead_closing b z).symm nofun hsglyphs normalItems_nil) ?_
  exact leads_closeReplacement hst he.twin_glyphs hp.twin_glyphs hs.twin_glyphs

end

theorem trimLeft_eq_self (he : e.Normal) (h : Text.Ink (skeleton e.glyphs)) : e.trimLeft = e := by
  cases e with
  | literal s l =>
    have hs : Text.Ink s := by simpa [glyphs, items, Item.glyphs_ofText] using h
    rw [trimLeft, trimLeft_eq_self hs]
  | sequence xs l =>
    obtain ⟨⟨-, hseparate⟩, -⟩ := normal_sequence.1 he
    rcases xs with _ | ⟨⟨_ | ⟨c, s⟩⟩ | r, rest⟩
    · rfl
    · exact absurd rfl (hseparate.ink [] mem_cons_self)
    · have hs : Text.trimLeft (c :: s) = c :: s := Text.trimLeft_eq_self h
      rw [trimLeft, Item.trimLeft, hs]
    · rfl

theorem trimRight_eq_self (he : e.Normal) (h : ∀ g ∈ e.glyphs.getLast?, g.isBlank = false) :
    e.trimRight = e := by
  have htext (gs : List Glyph) {s : Text} (h : ∀ g ∈ (gs ++ ofText s).getLast?, g.isBlank = false) :
      Text.trimRight s = s := by
    refine Text.trimRight_eq_self fun c hc => h (.char c) ?_
    obtain ⟨w, rfl⟩ := getLast?_eq_some_iff.1 hc
    simp [ofText]
  cases e with
  | literal s l =>
    have hs : Text.trimRight s = s := by
      refine htext [] ?_
      simpa [glyphs, items, Item.glyphs_ofText] using h
    rw [trimRight, hs]
  | sequence xs l =>
    obtain ⟨⟨-, hseparate⟩, -⟩ := normal_sequence.1 he
    have hxs : Item.trimRight xs = xs := by
      unfold Item.trimRight
      rcases eq_nil_or_concat xs with rfl | ⟨ys, s | r, rfl⟩
      · rfl
      · have hne : s ≠ [] := hseparate.ink s (by simp)
        have hs : Text.trimRight s = s := htext (Item.glyphs ys) (by simpa [glyphs, items] using h)
        obtain ⟨c, w, rfl⟩ := exists_cons_of_ne_nil hne
        rw [concat_eq_append, reverse_append, reverse_singleton, singleton_append,
          Item.trimRightRev, hs]
        simp
      · rw [concat_eq_append, reverse_append, reverse_singleton, singleton_append]
        simp [Item.trimRightRev]
    rw [trimRight, hxs]

/-- A call is complete with arguments that are read as those of a call. -/
theorem makeCall_of_isCall (h : IsCall b fn args) (hargs : ∀ e ∈ args, e.Normal) (loc : Location) :
    makeCall loc fn args = .ok (.call (some loc) fn args) := by
  unfold makeCall
  rw [if_neg (Nat.not_lt.2 h.takes.1), if_neg (Builtin.not_any_maxArgs h.takes.2)]
  split
  · rename_i c rest
    have hc : c.Normal := hargs c mem_cons_self
    rw [hc.trimLeft?, trimLeft_eq_self hc (h.ink c rfl)]
    have hright : c.trimRight? = .ok c := by
      rw [hc.trimRight?, trimRight_eq_self hc (h.trimmed rfl c rfl)]
    show (c.trimRight? >>= fun c => Except.ok (call (some loc) .cond (c :: rest))) = _
    rw [hright]
    rfl
  · rfl

theorem leads_closeCall (hst : st.Twin st) (h : IsCall b fn args)
    (hargs : ∀ e ∈ args, e.Normal)
    (htwin : List.Forall₂ Twin (done.reverse ++ [ofItems xs none]) args) :
    Leads d stops (st.opened b 0 (.call loc fn done) xs) [b.closing]
      (st.add (.ref (.call l fn args))) z := by
  refine leads_closing ?_
  unfold Reader.close
  dsimp only
  rw [reverse_reverse, reverse_cons]
  have halike := makeCall_alike (P := True) htwin loc loc fn
  rw [makeCall_of_isCall h hargs] at halike
  generalize makeCall loc fn (done.reverse ++ [ofItems xs none]) = made at halike
  cases halike with
  | ok hr =>
    have hr' : TwinRef _ (.call l fn args) := ⟨hr.left, normal_call.2 hargs, hr.same⟩
    exact .pure (hst.add hr'.items)

/-- **The arguments of a call are read one by one**, after those that are complete. -/
theorem leads_args (before : List Expansion) (hst : st.Twin st) (hne : args ≠ [])
    (hcall : IsCall b fn (before ++ args)) (hbefore : ∀ e ∈ before, e.Normal)
    (hargs : ∀ e ∈ args, e.Normal) (hglyphs : ∀ e ∈ args, ∀ g ∈ e.glyphs, g.Rereads)
    (hdone : List.Forall₂ Twin done.reverse before) :
    Leads d stops (st.opened b 0 (.call loc fn done) [])
      (join [','] (args.map fun e => spell e.glyphs) ++ [b.closing])
      (st.add (.ref (.call l fn (before ++ args)))) z := by
  -- the induction is on the arguments that are left, and `done` holds twins of those before
  induction args generalizing done before with
  | nil => cases hne rfl
  | cons e rest ih =>
    obtain ⟨he, hrest⟩ := forall_mem_cons.1 hargs
    obtain ⟨heglyphs, hrestglyphs⟩ := forall_mem_cons.1 hglyphs
    have hlength : done.length = before.length := by rw [← hdone.length_eq, length_reverse]
    have hpass : Passes b (fn.marks done.length) [] 0 e.glyphs 0 := by
      have hpass := (argsPass_append.1 hcall.passes).2.1
      rwa [Nat.zero_add, ← hlength] at hpass
    have hnormal : ∀ e ∈ done, e.Normal := fun e he =>
      forall_left hdone (fun _ _ h => h.left) e (mem_reverse.2 he)
    have hrole : Role.Twin (.call loc fn done) (.call loc fn done) :=
      .call (forall₂_same.2 fun e he => ⟨hnormal e he, hnormal e he, rfl⟩)
    have hnext : List.Forall₂ Twin (done.reverse ++ [ofItems (e.glyphs.map Glyph.item) none])
        (before ++ [e]) :=
      rel_append hdone (.cons he.twin_glyphs .nil)
    have hitems := normalItems_glyphs heglyphs
    cases rest with
    | nil =>
      exact Leads.trans
        (leads_passes hst hrole hpass (lookahead_closing b z).symm nofun heglyphs normalItems_nil)
        (leads_closeCall hst hcall (forall_mem_append.2 ⟨hbefore, hargs⟩) hnext)
    | cons e' rest =>
      have hlast : fn.lastAfter done.length = false := by
        refine Bool.eq_false_iff.2 fun hlast => ?_
        have hmany := hcall.takes.2 _ (eq_of_beq hlast)
        rw [length_append, length_cons, length_cons] at hmany
        omega
      have hjoin : join [','] ((e :: e' :: rest).map fun e => spell e.glyphs) ++ [b.closing] =
          spell e.glyphs ++
          ([','] ++ (join [','] ((e' :: rest).map fun e => spell e.glyphs) ++ [b.closing])) := by
        rw [map_cons, join_cons _ _ (by simp)]
        simp
      rw [hjoin]
      refine Leads.trans (leads_passes hst hrole hpass rfl nofun heglyphs normalItems_nil) ?_
      refine Leads.trans (leads_awaited hst hrole hitems (Role.mem_marks_call.2 ⟨rfl, hlast⟩)
        (Part.match?_comma _)) ?_
      have hcall' : IsCall b fn ((before ++ [e]) ++ (e' :: rest)) := by simpa using hcall
      have hall : before ++ e :: e' :: rest = before ++ [e] ++ e' :: rest := by simp
      rw [hall]
      exact ih (before ++ [e]) (cons_ne_nil _ _) hcall'
        (forall_mem_append.2 ⟨hbefore, by simpa using he⟩)
        hrest hrestglyphs (by simpa using hnext)

theorem ink_spell (h : Text.Ink (skeleton gs)) (hw : Text.Ink w) : Text.Ink (spell gs ++ w) := by
  rcases gs with _ | ⟨c | r, gs⟩
  · exact hw
  · exact h
  · obtain ⟨u, hu⟩ := r.exists_source
    rw [spell_ref, hu]
    exact h

/-- **A call is read as itself** between parentheses in which its arguments are read as such. -/
theorem leads_call (hst : st.Twin st) (hargs : ∀ e ∈ args, e.Normal)
    (hglyphs : ∀ e ∈ args, ∀ g ∈ e.glyphs, g.Rereads) (h : IsCall b fn args) :
    Leads d stops st
      (['$', b.opening] ++ fn.name ++ [' '] ++ (join [','] (args.map fun e => spell e.glyphs) ++
      [b.closing])) (st.add (.ref (.call l fn args))) z := by
  have hne : args ≠ [] := by
    rintro rfl
    cases fn.one_le_minArgs.trans h.takes.1
  refine Leads.trans (leads_enterCall hst ?_ d.loc)
    (leads_args [] hst hne h nofun hargs hglyphs .nil)
  obtain ⟨e, rest, rfl⟩ := exists_cons_of_ne_nil hne
  have hclosing : Text.Ink (b.closing :: z) := by
    rintro _ ⟨⟩
    exact (border_closing b).1
  cases rest with
  | nil => simpa [join] using ink_spell (h.ink e rfl) hclosing
  | cons e' rest =>
    rw [map_cons, join_cons _ _ (by simp), append_assoc, append_assoc, append_assoc]
    refine ink_spell (h.ink e rfl) ?_
    rintro _ ⟨⟩
    decide

end Whole

/-! ## References inside of references -/

section Depth

variable {r' : Reference}

theorem depthRef_le_depthItems (h : .ref r ∈ xs) : depthRef r ≤ depthItems xs := by
  induction xs with
  | nil => cases h
  | cons i xs ih =>
    rcases mem_cons.1 h with rfl | hxs
    · exact Nat.le_max_left _ _
    · cases i with
      | text s => exact ih hxs
      | ref r' => exact (ih hxs).trans (Nat.le_max_right _ _)

theorem depthRef_le_depth (h : .ref r ∈ e.glyphs) : depthRef r ≤ e.depth := by
  cases e with
  | literal s l => simp [glyphs, items, Item.glyphs_ofText] at h
  | sequence xs l => exact depthRef_le_depthItems (Item.ref_mem_glyphs.1 h)

theorem depth_le_depthArgs (h : e ∈ args) : e.depth ≤ depthArgs args := by
  induction args with
  | nil => cases h
  | cons a args ih =>
    rcases mem_cons.1 h with rfl | h
    · exact Nat.le_max_left _ _
    · exact (ih h).trans (Nat.le_max_right _ _)

/-- A reference among the glyphs of a part is nested less deep. -/
theorem depthRef_lt (he : e ∈ r.args) (h : .ref r' ∈ e.glyphs) : depthRef r' < depthRef r := by
  refine Nat.lt_of_le_of_lt (depthRef_le_depth h) ?_
  rcases r with ⟨l, n⟩ | ⟨l, n, p, s⟩ | ⟨l, fn, args⟩
  · cases mem_singleton.1 he
    exact Nat.lt_succ_self _
  · simp only [args, mem_cons, not_mem_nil, or_false] at he
    rw [depthRef]
    rcases he with rfl | rfl | rfl <;> omega
  · exact Nat.lt_succ_of_le (depth_le_depthArgs he)

/-- What is in a part is in the reference. -/
theorem within_of_mem_args {r'' : Reference} (he : e ∈ r.args) (h : .ref r' ∈ e.glyphs)
    (h' : r'' ∈ r'.within) :
    r'' ∈ r.within := by
  have hmem : r'' ∈ e.within := mem_within.2 ⟨r', h, h'⟩
  rcases r with ⟨l, n⟩ | ⟨l, n, p, s⟩ | ⟨l, fn, args⟩
  · cases mem_singleton.1 he
    exact mem_cons_of_mem _ hmem
  · simp only [Reference.args, mem_cons, not_mem_nil, or_false] at he
    rw [Reference.within]
    rcases he with rfl | rfl | rfl <;> simp [hmem]
  · exact mem_cons_of_mem _ (mem_withinArgs.2 ⟨e, he, hmem⟩)

theorem normal_of_mem_args (h : r.Normal) (he : e ∈ r.args) : e.Normal := by
  rcases r with ⟨l, n⟩ | ⟨l, n, p, s⟩ | ⟨l, fn, args⟩
  · cases mem_singleton.1 he
    exact normal_variable.1 h
  · obtain ⟨hn, hp, hs⟩ := normal_substitution.1 h
    simp only [args, mem_cons, not_mem_nil, or_false] at he
    rcases he with rfl | rfl | rfl
    · exact hn
    · exact hp
    · exact hs
  · exact normal_call.1 h e he

theorem normal_of_mem_glyphs (h : e.Normal) (hr : .ref r ∈ e.glyphs) : r.Normal := by
  cases e with
  | literal s l => simp [glyphs, items, Item.glyphs_ofText] at hr
  | sequence xs l => exact (normal_sequence.1 h).2 r (Item.ref_mem_glyphs.1 hr)

end Depth

end Expansion

/-- The kind of parenthesis that the source of the reference is written in. -/
def Reference.brace : Reference → Brace
  | .call _ _ args =>
    if (sourceArgs args).any fun a => a.count '(' != a.count ')' then .curly else .round
  | _ => .round

/-- Is the reference written without parentheses? -/
def Reference.automatic : Reference → Bool
  | .variable _ (.literal s _) => automaticNames.contains s
  | _ => false

/-- The reference is spelled between the parentheses that it is written in, without a dollar sign in
its texts. -/
def Reference.Legible (r : Reference) : Prop :=
  r.automatic = true ∨ r.SpelledIn r.brace ∧ ∀ e ∈ r.args, .char '$' ∉ e.glyphs

namespace Expansion

theorem sourceArgs_eq_map (args : List Expansion) :
    sourceArgs args = args.map fun e => spell e.glyphs := by
  induction args with
  | nil => rfl
  | cons e args ih => rw [sourceArgs, map_cons, ih, source_eq_spell]

theorem source_variable (l : Option Location) (h : ¬ (Reference.variable l e).automatic = true) :
    (Reference.variable l e).source = ['$', '('] ++ (spell e.glyphs ++ [')']) := by
  cases e with
  | literal s l' =>
    have hglyphs : (literal s l').glyphs = ofText s := Item.glyphs_ofText s
    have hs : ¬ automaticNames.contains s = true := h
    rw [Reference.source, variableSource, if_neg hs, hglyphs, spell_ofText]
    rfl
  | sequence xs l' =>
    rw [Reference.source, sourceItems_eq_spell]
    rfl

/-- The source of a call that has no blanks before its first argument. -/
theorem source_call (l : Option Location)
    (hink : ∀ e ∈ args.head?, Text.Ink (skeleton e.glyphs)) :
    (call l fn args).source = ['$', (call l fn args).brace.opening] ++ fn.name ++ [' '] ++
      (join [','] (args.map fun e => spell e.glyphs) ++
        [(Reference.call l fn args).brace.closing]) := by
  unfold Reference.source callSource Reference.brace
  simp only [sourceArgs_eq_map]
  cases args with
  | nil => simp
  | cons e rest =>
    have he : Text.trimLeft (spell e.glyphs) = spell e.glyphs := by
      have hfirst := ink_spell (hink e rfl) (w := []) nofun
      rw [append_nil] at hfirst
      exact Text.trimLeft_eq_self hfirst
    simp only [map_cons, he, append_assoc]

/-- **The source of a reference that is legible at every depth is read as the reference.** -/
theorem rereads_of_legible (h : ∀ r' ∈ r.within, r'.Legible) (hr : r.Normal) : r.Rereads := by
  -- references among the glyphs of a part are nested less deep
  induction hdepth : depthRef r using Nat.strongRecOn generalizing r with
  | _ depth ih =>
    have hnormal : ∀ e ∈ r.args, e.Normal := fun e he => normal_of_mem_args hr he
    have hself : r ∈ r.within := by cases r <;> exact mem_cons_self
    intro d stops st z hst
    by_cases hauto : r.automatic = true
    · rcases r with ⟨l, ⟨s, l'⟩ | ⟨xs, l'⟩⟩ | ⟨l, n, p, s⟩ | ⟨l, fn, args⟩
      · have hs : automaticNames.contains s = true := hauto
        rw [Reference.source, variableSource, if_pos hs]
        exact leads_automatic hst (by simpa using hs) l l'
      all_goals cases hauto
    · obtain ⟨hspelled, hdollar⟩ := (h r hself).resolve_left hauto
      have hglyphs : ∀ e ∈ r.args, ∀ g ∈ e.glyphs, g.Rereads := by
        intro e he g hg
        cases g with
        | char c =>
          rintro rfl
          exact hdollar e he hg
        | ref r' =>
          have hr' := normal_of_mem_glyphs (hnormal e he) hg
          exact ⟨hr', ih _ (hdepth ▸ depthRef_lt he hg)
            (fun r'' hr'' => h r'' (within_of_mem_args he hg hr'')) hr' rfl⟩
      rcases r with ⟨l, n⟩ | ⟨l, n, p, s⟩ | ⟨l, fn, args⟩
      · rw [source_variable l hauto]
        exact leads_variable hst (hnormal n (by simp [args])) (hglyphs n (by simp [args])) hspelled
      · have hsource : (Reference.substitution l n p s).source = ['$', '('] ++
          (spell n.glyphs ++ ([':'] ++
            (spell p.glyphs ++ (['='] ++ (spell s.glyphs ++ [')']))))) := by
          simp [Reference.source, source_eq_spell]
        rw [hsource]
        exact leads_substitution hst (hnormal n (by simp [args])) (hnormal p (by simp [args]))
          (hnormal s (by simp [args])) (hglyphs n (by simp [args]))
          (hglyphs p (by simp [args])) (hglyphs s (by simp [args])) hspelled
      · rw [source_call l hspelled.ink]
        exact leads_call hst hnormal hglyphs hspelled

end Expansion

end Rebuild
