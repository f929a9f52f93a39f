import Mathlib.Data.List.Forall2
import Rebuild.Proofs.EndAlike
import Rebuild.Proofs.Expansion.Glyph
/-!
# Reading a text in two places

Where a text stands shows only in the locations of what is read from it. Two expansions are twins if
they are in normal form and equal but for their locations (`Twin`); two lines with the same text are
read alike, into twins (`parse_alike`). Reading a line beside itself gives that everything read is
in normal form.
-/

namespace Rebuild

open List Item

variable {d d' d'' : Line} {o o' : Nat}

/-- What the relation tells of its left sides holds of all members of the left list. -/
theorem forall_left {α β : Type} {R : α → β → Prop} {P : α → Prop} {as : List α} {bs : List β}
    (h : List.Forall₂ R as bs) (hP : ∀ a b, R a b → P a) : ∀ a ∈ as, P a :=
  ((forall₂_and_left _ _).1 (h.imp fun a b hab => ⟨hP a b hab, hab⟩)).1

namespace Expansion

open Reader

variable {e e' : Expansion} {xs ys us vs : List Item} {r r' : Reference} {l l' : Option Location}
  {args args' : List Expansion}

/-! ## Without locations -/

mutual

/-- The expansion without its locations. -/
@[simp] def unplaced : Expansion → Expansion
  | .literal s _ => .literal s none
  | .sequence xs _ => .sequence (unplacedItems xs) none

/-- The items without their locations. -/
@[simp] def unplacedItems : List Item → List Item
  | [] => []
  | .text s :: rest => .text s :: unplacedItems rest
  | .ref r :: rest => .ref (unplacedRef r) :: unplacedItems rest

/-- The reference without its locations. -/
@[simp] def unplacedRef : Reference → Reference
  | .variable _ n => .variable none n.unplaced
  | .substitution _ n p r => .substitution none n.unplaced p.unplaced r.unplaced
  | .call _ fn args => .call none fn (unplacedArgs args)

/-- The arguments without their locations. -/
@[simp] def unplacedArgs : List Expansion → List Expansion
  | [] => []
  | e :: rest => e.unplaced :: unplacedArgs rest

end

theorem unplacedItems_append (xs ys : List Item) :
    unplacedItems (xs ++ ys) = unplacedItems xs ++ unplacedItems ys := by
  induction xs with
  | nil => rfl
  | cons i xs ih => cases i <;> simp [unplacedItems, ih]

theorem unplacedItems_reverse (xs : List Item) :
    unplacedItems xs.reverse = (unplacedItems xs).reverse := by
  induction xs with
  | nil => rfl
  | cons i xs ih => cases i <;> simp [unplacedItems, unplacedItems_append, ih]

@[simp] theorem hasRef_unplacedItems (xs : List Item) : hasRef (unplacedItems xs) = hasRef xs := by
  induction xs with
  | nil => rfl
  | cons i xs ih => cases i <;> simp_all [hasRef, unplacedItems]

@[simp] theorem textOf_unplacedItems (xs : List Item) : textOf (unplacedItems xs) = textOf xs := by
  induction xs with
  | nil => rfl
  | cons i xs ih => cases i <;> simp_all [textOf, unplacedItems]

theorem merge_unplacedItems (xs : List Item) :
    merge (unplacedItems xs) = unplacedItems (merge xs) := by
  induction xs with
  | nil => rfl
  | cons i xs ih =>
    cases i with
    | ref r => simp [Item.merge, unplacedItems, ih]
    | text s =>
      rw [unplacedItems, Item.merge, Item.merge, ih]
      rcases hmerge : Item.merge xs with _ | ⟨_ | _, more⟩
      · by_cases hs : s.isEmpty <;> simp [unplacedItems, hs]
      · rfl
      · by_cases hs : s.isEmpty <;> simp [unplacedItems, hs]

theorem unplaced_ofItems (xs : List Item) (l : Option Location) :
    (ofItems xs l).unplaced = ofItems (unplacedItems xs) none := by
  unfold ofItems
  rw [hasRef_unplacedItems, textOf_unplacedItems, merge_unplacedItems]
  split <;> rfl

theorem trimLeft_unplacedItems (xs : List Item) :
    Item.trimLeft (unplacedItems xs) = unplacedItems (Item.trimLeft xs) := by
  induction xs with
  | nil => rfl
  | cons i xs ih =>
    cases i with
    | ref r => rfl
    | text s => cases hs : Text.trimLeft s <;> simp [Item.trimLeft, hs, ih]

theorem trimRightRev_unplacedItems (xs : List Item) :
    trimRightRev (unplacedItems xs) = unplacedItems (trimRightRev xs) := by
  induction xs with
  | nil => rfl
  | cons i xs ih =>
    cases i with
    | ref r => rfl
    | text s => cases hs : Text.trimRight s <;> simp [trimRightRev, hs, ih]

theorem unplaced_trimLeft (e : Expansion) : e.trimLeft.unplaced = e.unplaced.trimLeft := by
  cases e with
  | literal s l => rfl
  | sequence xs l => simp only [trimLeft, unplaced, trimLeft_unplacedItems]

theorem unplaced_trimRight (e : Expansion) : e.trimRight.unplaced = e.unplaced.trimRight := by
  cases e with
  | literal s l => rfl
  | sequence xs l =>
    simp only [trimRight, unplaced, Item.trimRight, unplacedItems_reverse,
      ← trimRightRev_unplacedItems]

theorem isEmpty_unplaced (e : Expansion) : e.unplaced.isEmpty = e.isEmpty := by
  rcases e with ⟨s, l⟩ | ⟨_ | ⟨⟨_ | _⟩ | _, _⟩, l⟩ <;> rfl

/-! ## Twins -/

/-- Two expansions in normal form that are equal but for their locations. -/
structure Twin (e e' : Expansion) : Prop where
  left : e.Normal
  right : e'.Normal
  same : e.unplaced = e'.unplaced

/-- Two lists of items, with references in normal form, that are equal but for their locations and
for where their texts are cut. -/
structure TwinItems (xs ys : List Item) : Prop where
  left : NormalItems xs
  right : NormalItems ys
  same : Item.glyphs (unplacedItems xs) = Item.glyphs (unplacedItems ys)

/-- Two references in normal form that are equal but for their locations. -/
structure TwinRef (r r' : Reference) : Prop where
  left : r.Normal
  right : r'.Normal
  same : unplacedRef r = unplacedRef r'

theorem twinItems_nil : TwinItems [] [] := ⟨normalItems_nil, normalItems_nil, rfl⟩

theorem twinItems_ofText (s : Text) : TwinItems (ofText s) (ofText s) := by
  unfold ofText
  split
  · exact twinItems_nil
  · exact ⟨normalItems_nil.cons_text s, normalItems_nil.cons_text s, rfl⟩

theorem twinItems_text (s : Text) : TwinItems [.text s] [.text s] :=
  ⟨normalItems_nil.cons_text s, normalItems_nil.cons_text s, rfl⟩

theorem TwinRef.items (hr : TwinRef r r') : TwinItems [.ref r] [.ref r'] :=
  ⟨normalItems_nil.cons_ref hr.left, normalItems_nil.cons_ref hr.right,
    by rw [unplacedItems, unplacedItems, hr.same]; rfl⟩

theorem TwinItems.append (h : TwinItems xs ys) (h' : TwinItems us vs) :
    TwinItems (xs ++ us) (ys ++ vs) :=
  ⟨normalItems_append.2 ⟨h.left, h'.left⟩, normalItems_append.2 ⟨h.right, h'.right⟩,
    by rw [unplacedItems_append, unplacedItems_append, glyphs_append, glyphs_append,
      h.same, h'.same]⟩

theorem TwinItems.ofItems (h : TwinItems xs ys) (l l' : Option Location) :
    Twin (ofItems xs l) (ofItems ys l') :=
  ⟨normal_ofItems h.left l, normal_ofItems h.right l',
    by rw [unplaced_ofItems, unplaced_ofItems, ofItems_congr h.same]⟩

theorem twin_literal (s : Text) (l l' : Option Location) : Twin (.literal s l) (.literal s l') :=
  ⟨normal_literal s l, normal_literal s l', rfl⟩

section

variable (h : Twin e e')
include h

theorem Twin.trans {e'' : Expansion} (h' : Twin e' e'') : Twin e e'' :=
  ⟨h.left, h'.right, h.same.trans h'.same⟩

theorem Twin.symm : Twin e' e := ⟨h.right, h.left, h.same.symm⟩

theorem Twin.trimLeft : Twin e.trimLeft e'.trimLeft :=
  ⟨h.left.trimLeft, h.right.trimLeft, by rw [unplaced_trimLeft, unplaced_trimLeft, h.same]⟩

theorem Twin.trimRight : Twin e.trimRight e'.trimRight :=
  ⟨h.left.trimRight, h.right.trimRight, by rw [unplaced_trimRight, unplaced_trimRight, h.same]⟩

theorem Twin.isEmpty : e.isEmpty = e'.isEmpty := by
  rw [← isEmpty_unplaced e, h.same, isEmpty_unplaced]

theorem Twin.variable : TwinRef (.variable l e) (.variable l' e') :=
  ⟨normal_variable.2 h.left, normal_variable.2 h.right, by rw [unplacedRef, unplacedRef, h.same]⟩

theorem Twin.substitution {p p' s s' : Expansion} (hp : Twin p p') (hs : Twin s s') :
    TwinRef (.substitution l e p s) (.substitution l' e' p' s') :=
  ⟨normal_substitution.2 ⟨h.left, hp.left, hs.left⟩,
    normal_substitution.2 ⟨h.right, hp.right, hs.right⟩,
    by rw [unplacedRef, unplacedRef, h.same, hp.same, hs.same]⟩

end

theorem twin_call (h : List.Forall₂ Twin args args') (fn : Builtin) :
    TwinRef (.call l fn args) (.call l' fn args') := by
  have hsame : unplacedArgs args = unplacedArgs args' := by
    induction h with
    | nil => rfl
    | cons h _ ih => rw [unplacedArgs, unplacedArgs, h.same, ih]
  have hleft : ∀ e ∈ args, e.Normal := forall_left h fun _ _ h => h.left
  have hright : ∀ e ∈ args', e.Normal := forall_left h.flip fun _ _ h => h.right
  exact ⟨normal_call.2 hleft, normal_call.2 hright, by rw [unplacedRef, unplacedRef, hsame]⟩

/-! ## What may fail -/

/-- The error is an index breach only if something holds. -/
def IndexOnly (P : Prop) (e : Error) : Prop := e = .breach .index → P

variable {P : Prop} {role role' : Role}

theorem Twin.trimLeft? (h : Twin e e') : SameEnd (IndexOnly P) Twin e.trimLeft? e'.trimLeft? := by
  rw [h.left.trimLeft?, h.right.trimLeft?]
  exact .ok h.trimLeft

theorem Twin.trimRight? (h : Twin e e') :
    SameEnd (IndexOnly P) Twin e.trimRight? e'.trimRight? := by
  rw [h.left.trimRight?, h.right.trimRight?]
  exact .ok h.trimRight

theorem makeCall_alike (h : List.Forall₂ Twin args args') (loc loc' : Location) (fn : Builtin) :
    SameEnd (IndexOnly P) TwinRef (makeCall loc fn args) (makeCall loc' fn args') := by
  unfold makeCall
  rw [← h.length_eq]
  split
  · exact .error nofun
  split
  · exact .error nofun
  cases h with
  | nil => cases fn <;> exact .ok (twin_call .nil _)
  | @cons c c' rest rest' hc hrest =>
    cases fn
    case cond =>
      refine .bind hc.trimLeft? fun _ _ hc => .bind hc.trimRight? fun _ _ hc => ?_
      exact .ok (twin_call (.cons hc hrest) _)
    all_goals exact .ok (twin_call (.cons hc hrest) _)

/-! ## The states of the reader -/

/-- Gather items. -/
def Reader.gather (st : Reader) (xs : List Item) : Reader :=
  match st.frames with
  | [] => { st with outer := xs.reverse ++ st.outer }
  | f :: fs => { st with frames := { f with gathered := xs.reverse ++ f.gathered } :: fs }

theorem Reader.gather_nil (st : Reader) : st.gather [] = st := by
  obtain ⟨outer, frames⟩ := st
  cases frames <;> rfl

theorem Reader.gather_gather (st : Reader) (xs ys : List Item) :
    (st.gather xs).gather ys = st.gather (xs ++ ys) := by
  unfold gather
  cases st.frames <;> simp

theorem Reader.add_eq_gather (st : Reader) (i : Item) : st.add i = st.gather [i] := rfl

theorem Reader.addText_eq_gather (st : Reader) (s : Text) :
    st.addText s = st.gather (ofText s) := by
  unfold addText ofText
  split
  · exact (gather_nil st).symm
  · rfl

/-- Two open references that are equal but for their locations, with all that is complete of them in
normal form. -/
inductive Role.Twin : Role → Role → Prop
  | call {loc loc' : Location} {fn : Builtin} {args args' : List Expansion}
      (parts : List.Forall₂ Expansion.Twin args args') : Role.Twin (.call loc fn args)
        (.call loc' fn args')
  | name {loc loc' : Location} : Role.Twin (.name loc) (.name loc')
  | pattern {loc loc' : Location} {n n' : List Item} (name : TwinItems n n') :
      Role.Twin (.pattern loc n) (.pattern loc' n')
  | replacement {loc loc' : Location} {n n' p p' : List Item} (name : TwinItems n n')
      (pattern : TwinItems p p') :
      Role.Twin (.replacement loc n p) (.replacement loc' n' p')

theorem Role.Twin.next (h : role.Twin role') (hxs : TwinItems xs ys) :
    (role.next xs).Twin (role'.next ys) := by
  cases h with
  | call hargs => exact .call (.cons (hxs.ofItems none none) hargs)
  | name => exact .pattern hxs
  | pattern hname => exact .replacement hname hxs
  | replacement hname hpattern => exact .replacement hname hpattern

/-- Two frames that are equal but for their locations. -/
structure Frame.Twin (f f' : Frame) : Prop where
  brace : f.brace = f'.brace
  nested : f.nested = f'.nested
  gathered : TwinItems f.gathered.reverse f'.gathered.reverse
  role : f.role.Twin f'.role

/-- Two states of the reader that are equal but for their locations. -/
structure Reader.Twin (st st' : Reader) : Prop where
  outer : TwinItems st.outer.reverse st'.outer.reverse
  frames : List.Forall₂ Frame.Twin st.frames st'.frames

variable {st st' : Reader} {f f' : Frame} {s : Text}

theorem twin_start : Reader.Twin ⟨[], []⟩ ⟨[], []⟩ := ⟨twinItems_nil, .nil⟩

theorem Frame.Twin.tokens (h : f.Twin f') : f.tokens = f'.tokens := by
  obtain ⟨brace, nested, gathered, role⟩ := f
  obtain ⟨brace', nested', gathered', role'⟩ := f'
  obtain ⟨hbrace, hnested, -, hrole⟩ := h
  subst hbrace hnested
  cases hrole with
  | call hargs =>
    unfold Frame.tokens
    dsimp only
    rw [hargs.length_eq]
  | name | pattern | replacement => rfl

namespace Reader.Twin

section

variable (h : st.Twin st')
include h

theorem tokens (stops : List Text) : st.tokens stops = st'.tokens stops := by
  obtain ⟨outer, frames⟩ := st
  obtain ⟨outer', frames'⟩ := st'
  obtain ⟨-, hframes⟩ := h
  cases hframes with
  | nil => rfl
  | cons hf _ => exact hf.tokens

theorem mode (m : Mode) : st.mode m = st'.mode m := by
  obtain ⟨outer, frames⟩ := st
  obtain ⟨outer', frames'⟩ := st'
  obtain ⟨-, hframes⟩ := h
  cases hframes <;> rfl

theorem gather (hxs : TwinItems xs ys) : (st.gather xs).Twin (st'.gather ys) := by
  obtain ⟨outer, frames⟩ := st
  obtain ⟨outer', frames'⟩ := st'
  obtain ⟨houter, hframes⟩ := h
  cases hframes with
  | nil => exact ⟨by simpa [gather] using houter.append hxs, .nil⟩
  | cons hf hrest =>
    exact ⟨houter, .cons ⟨hf.brace, hf.nested, by simpa using hf.gathered.append hxs,
      hf.role⟩ hrest⟩

theorem add {i i' : Item} (hi : TwinItems [i] [i']) : (st.add i).Twin (st'.add i') := h.gather hi

theorem addText (s : Text) : (st.addText s).Twin (st'.addText s) := by
  rw [addText_eq_gather, addText_eq_gather]
  exact h.gather (twinItems_ofText s)

theorem enter (hrole : role.Twin role') (b : Brace) :
    (st.enter b role).Twin (st'.enter b role') :=
  ⟨h.outer, .cons ⟨rfl, rfl, twinItems_nil, hrole⟩ h.frames⟩

theorem setTop (hf : f.Twin f') : (st.setTop f).Twin (st'.setTop f') :=
  ⟨h.outer, .cons hf (forall₂_drop 1 h.frames)⟩

theorem leave (hr : TwinRef r r') : (st.leave r).Twin (st'.leave r') := by
  have hdrop : Reader.Twin { st with frames := st.frames.drop 1 }
      { st' with frames := st'.frames.drop 1 } :=
    ⟨h.outer, forall₂_drop 1 h.frames⟩
  exact hdrop.add hr.items

theorem reference (loc loc' : Location) (c : Char) :
    (st.reference loc c).Twin (st'.reference loc' c) := by
  unfold Reader.reference
  split
  · exact h.addText _
  · split
    · exact h.enter .name _
    · exact h.add (twin_literal _ _ _).variable.items

end

/-! ## One mark -/

theorem close_alike (h : st.Twin st') (hf : f.Twin f') :
    EndAlike (IndexOnly P) Reader.Twin (st.close f) (st'.close f') := by
  obtain ⟨brace, nested, gathered, role⟩ := f
  obtain ⟨brace', nested', gathered', role'⟩ := f'
  obtain ⟨-, -, hpart, hrole⟩ := hf
  cases hrole with
  | call hargs =>
    have hall := rel_reverse (.cons (hpart.ofItems none none) hargs)
    exact .bind (.lift (makeCall_alike hall _ _ _)) fun r r' hr => .pure (h.leave hr)
  | name => exact .pure (h.leave (hpart.ofItems none none).variable)
  | pattern hname =>
    have hwhole := (hname.append (twinItems_text [':'])).append hpart
    refine .bind (R := fun _ _ => True) (fun _ _ => .ok trivial) fun _ _ _ => .pure (h.leave ?_)
    exact (hwhole.ofItems none none).variable
  | replacement hname hpattern =>
    exact .pure (h.leave ((hname.ofItems none none).substitution (hpattern.ofItems none none)
      (hpart.ofItems none none)))

theorem endPart_alike (h : st.Twin st') (hf : f.Twin f') (hrole : role.Twin role')
    (s awaited : Text) :
    EndAlike (IndexOnly P) Reader.Twin (st.endPart f s awaited role)
      (st'.endPart f' s awaited role') := by
  unfold endPart
  split
  · exact .pure (h.setTop ⟨hf.brace, hf.nested, twinItems_nil, hrole⟩)
  · exact .throw nofun

theorem mark_alike (h : st.Twin st') (hf : f.Twin f') (s : Text) :
    EndAlike (IndexOnly P) Reader.Twin (st.mark f s) (st'.mark f' s) := by
  have hwhole := hf
  obtain ⟨brace, nested, gathered, role⟩ := f
  obtain ⟨brace', nested', gathered', role'⟩ := f'
  obtain ⟨hbrace, hnested, hpart, hrole⟩ := hf
  subst hbrace hnested
  have hparen (n : Nat) : Frame.Twin ⟨brace, n, .text s :: gathered, role⟩
      ⟨brace, n, .text s :: gathered', role'⟩ :=
    ⟨rfl, rfl, by simpa using hpart.append (twinItems_text s), hrole⟩
  unfold mark
  split
  · exact .pure (h.setTop (hparen _))
  split
  · split
    · exact .pure (h.setTop (hparen _))
    · exact h.close_alike hwhole
  split
  · exact .throw nofun
  cases hrole with
  | call hargs => exact h.endPart_alike hwhole (.call (.cons (hpart.ofItems none none) hargs)) s _
  | name => exact h.endPart_alike hwhole (.pattern hpart) s _
  | pattern hname => exact h.endPart_alike hwhole (.replacement hname hpart) s _
  | replacement => exact .throw nofun

end Reader.Twin

end Expansion

/-! ## Two lines with one text -/

namespace Line

/-- The offsets are equally far from the starts of the two lines. -/
def Level (d d' : Line) (o o' : Nat) : Prop := ∃ n, o = d.start + n ∧ o' = d'.start + n

theorem Level.add (h : Level d d' o o') (k : Nat) : Level d d' (o + k) (o' + k) := by
  obtain ⟨n, rfl, rfl⟩ := h
  exact ⟨n + k, by omega, by omega⟩

theorem Level.trans {o'' : Nat} (h : Level d d' o o') (h' : Level d' d'' o' o'') :
    Level d d'' o o'' := by
  obtain ⟨n, rfl, rfl⟩ := h
  obtain ⟨m, hm, rfl⟩ := h'
  exact ⟨n, rfl, by omega⟩

theorem level_start (d d' : Line) : Level d d' d.start d'.start := ⟨0, rfl, rfl⟩

section Text

variable (htext : d.text = d'.text)

include htext

section

variable (h : Level d d' o o')
include h

theorem Level.rest : d.rest o = d'.rest o' := by
  obtain ⟨n, rfl, rfl⟩ := h
  unfold Line.rest
  rw [htext, Nat.add_sub_cancel_left, Nat.add_sub_cancel_left]

theorem Level.covers : d.covers o = d'.covers o' := by
  obtain ⟨n, rfl, rfl⟩ := h
  simp [Line.covers, Line.stop, htext]

theorem Level.skipBlanks : Level d d' (d.skipBlanks o) (d'.skipBlanks o') := by
  unfold Line.skipBlanks
  rw [← h.rest htext]
  obtain ⟨n, rfl, rfl⟩ := h
  refine ⟨min d.text.length (n + ((d.rest (d.start + n)).takeWhile Text.isBlank).length), ?_, ?_⟩
  · unfold Line.stop
    omega
  · unfold Line.stop
    rw [← htext]
    omega

theorem Level.char? : d.char? o = d'.char? o' := congrArg List.head? (h.rest htext)

theorem Level.flatten : d.flatten o = d'.flatten o' := by
  unfold Line.flatten
  rw [h.rest htext]

theorem Level.eq_stop : o = d.stop ↔ o' = d'.stop := by
  obtain ⟨n, rfl, rfl⟩ := h
  unfold Line.stop
  rw [htext]
  omega

end

end Text

end Line

namespace Lexeme

/-- The same lexeme of two lines with one text. -/
structure Twin (d d' : Line) (x y : Lexeme) : Prop where
  before : x.before = y.before
  token : x.token = y.token
  start : Line.Level d d' x.start y.start

theorem scan_twin (before s : Text) (h : Line.Level d d' o o') :
    (scan before o s).2 = (scan before o' s).2 ∧
      List.Forall₂ (Twin d d') (scan before o s).1 (scan before o' s).1 := by
  fun_induction scan before o s generalizing o' with
  | case1 before o =>
    rw [scan]
    exact ⟨rfl, .nil⟩
  | case2 before o c rest hnone ih =>
    conv => enter [1, 2, 1]; rw [scan]
    conv => enter [2, 3, 1]; rw [scan]
    simp only [hnone]
    exact ih (h.add 1)
  | case3 before o c rest token hsome n tail =>
    rename_i ih
    have hscan : scan before o' (c :: rest) =
        (⟨before.reverse, token, o'⟩ :: (scan [] (o' + n) (rest.drop (n - 1))).1,
          (scan [] (o' + n) (rest.drop (n - 1))).2) := by
      rw [scan]
      simp only [hsome]
      rfl
    obtain ⟨htail, hrest⟩ := ih (h.add n)
    rw [hscan]
    exact ⟨htail, .cons ⟨rfl, rfl, h⟩ hrest⟩

end Lexeme

namespace Expansion

variable {x y : Lexeme} {st st' : Reader} {P : Prop} {m : Mode} {stops : List Text}
  {r r' : Read}

/-- Two readings that gave twins and used up the lines, or stopped at the same token in the same
place of them. -/
inductive Read.Twin (d d' : Line) : Read → Read → Prop
  | used {e e' : Expansion} (h : Expansion.Twin e e') : Read.Twin d d' ⟨e, none⟩ ⟨e', none⟩
  | stopped {e e' : Expansion} {t : Token} {o o' : Nat} (h : Expansion.Twin e e')
      (level : Line.Level d d' o o') :
      Read.Twin d d' ⟨e, some (t, o)⟩ ⟨e', some (t, o')⟩

theorem Read.Twin.exp (h : r.Twin d d' r') : Expansion.Twin r.exp r'.exp := by
  cases h with
  | used h => exact h
  | stopped h => exact h

theorem Read.Twin.trans {r'' : Read} (h : r.Twin d d' r') (h' : r'.Twin d' d'' r'') :
    r.Twin d d'' r'' := by
  cases h with
  | used h =>
    cases h' with
    | used h' => exact .used (h.trans h')
  | stopped h level =>
    cases h' with
    | stopped h' level' => exact .stopped (h.trans h') (level.trans level')

theorem finish_alike (h : st.Twin st') (located located' : Bool) :
    EndAlike (IndexOnly P) (Read.Twin d d') (st.finish d located) (st'.finish d' located') := by
  obtain ⟨outer, frames⟩ := st
  obtain ⟨outer', frames'⟩ := st'
  obtain ⟨houter, hframes⟩ := h
  have hempty : frames.isEmpty = frames'.isEmpty := by cases hframes <;> rfl
  unfold Reader.finish
  rw [hempty]
  split
  · exact .pure (.used (houter.ofItems _ _))
  · split
    · split <;> exact .throw nofun
    · split <;> exact .throw nofun

theorem read_twin (h : x.Twin d d' y) (m : Mode) (tokens : List Text) :
    m.read tokens x = m.read tokens y := by
  unfold Mode.read
  rw [h.before, h.token]

/-- After the last lexeme, the rest of the text is gathered. -/
theorem readLexemes_nil (d : Line) (m : Mode) (stops : List Text) (tail : Text) (fresh : Bool)
    (st : Reader) :
    readLexemes d m stops tail fresh st [] =
      (st.addText ((st.mode m).flat tail)).finish d (fresh && tail.isEmpty) := by
  rw [readLexemes]
  split
  · rename_i hend
    have htail : tail = [] := List.isEmpty_iff.1 (Bool.and_eq_true_iff.1 hend).2
    rw [hend, htail, Mode.flat_nil]
    rfl
  · rename_i hend
    rw [Bool.eq_false_iff.2 hend]

/-- Two readings of a lexeme that leave two readers twins. -/
inductive Reader.TwinReading (st st' : Reader) : Reading → Reading → Prop
  | ended {s s' : Text} (h : (st.addText s).Twin (st'.addText s')) :
      TwinReading st st' (.ended s) (.ended s')
  | plain {s s' : Text} (h : (st.addText s).Twin (st'.addText s')) :
      TwinReading st st' (.plain s) (.plain s')
  | found {s s' : Text} (h : (st.addText s).Twin (st'.addText s')) :
      TwinReading st st' (.found s) (.found s')

section Lexeme

variable {s s' tail : Text} {fresh fresh' : Bool} {xs ys : List Lexeme} (htoken : x.token = y.token)
  (hstart : Line.Level d d' x.start y.start)
  (hon : ∀ (fresh fresh' : Bool) (st st' : Reader), st.Twin st' →
    EndAlike (IndexOnly P) (Read.Twin d d')
    (readLexemes d m stops tail fresh st xs) (readLexemes d' m stops tail fresh' st' ys))

include htoken hstart hon

/-- A mark that was asked for is taken up in the same way in twin states. -/
theorem readMark_alike (hread : (st.mode m).read (st.tokens stops) x = .found s)
    (hread' : (st'.mode m).read (st'.tokens stops) y = .found s')
    (hadd : (st.addText s).Twin (st'.addText s'))
    (hmark : x.token.isReference = false) :
    EndAlike (IndexOnly P) (Read.Twin d d') (readLexemes d m stops tail fresh st (x :: xs))
      (readLexemes d' m stops tail fresh' st' (y :: ys)) := by
  have hmark' : y.token.isReference = false := htoken ▸ hmark
  cases hframes : (st.addText s).frames with
  | nil =>
    have hframes' : (st'.addText s').frames = [] := forall₂_nil_left_iff.1 (hframes ▸ hadd.frames)
    have hstop : Line.Level d d' x.stop y.stop := by
      unfold Lexeme.stop
      rw [← htoken]
      exact hstart.add _
    rw [readLexemes_mark_outside hread hmark hframes,
      readLexemes_mark_outside hread' hmark' hframes', ← htoken]
    split
    · exact .throw nofun
    · exact .pure (.stopped (hadd.outer.ofItems _ _) hstop)
  | cons f fs =>
    obtain ⟨f', fs', hf, -, hframes'⟩ := forall₂_cons_left_iff.1 (hframes ▸ hadd.frames)
    rw [readLexemes_mark_inside hread hmark hframes, readLexemes_mark_inside hread' hmark' hframes',
      ← htoken]
    exact .bind (hadd.mark_alike hf _) (hon true true)

/-- **One lexeme leads two readers the same way.** -/
theorem readLexeme_alike (htext : d.text = d'.text)
    (hdollar : x.token = .dollar → x.stop ≠ d.stop → P)
    (hread : Reader.TwinReading st st' ((st.mode m).read (st.tokens stops) x)
      ((st'.mode m).read (st'.tokens stops) y)) :
    EndAlike (IndexOnly P) (Read.Twin d d') (readLexemes d m stops tail fresh st (x :: xs))
      (readLexemes d' m stops tail fresh' st' (y :: ys)) := by
  generalize hx : (st.mode m).read (st.tokens stops) x = r at hread
  generalize hy : (st'.mode m).read (st'.tokens stops) y = r' at hread
  cases hread with
  | ended h =>
    rw [readLexemes, readLexemes, hx, hy]
    exact finish_alike h false false
  | plain h =>
    rw [readLexemes, readLexemes, hx, hy]
    exact hon false false _ _ h
  | found hadd =>
    cases hcase : x.token with
    | hash | mark =>
      have hmark : x.token.isReference = false := by rw [hcase]; rfl
      exact readMark_alike htoken hstart hon hx hy hadd hmark
    | dollar =>
      have hstop : x.stop = d.stop ↔ y.stop = d'.stop := by
        unfold Lexeme.stop
        rw [← htoken]
        exact (hstart.add _).eq_stop htext
      rw [readLexemes, readLexemes, hx, hy]
      rw [← htoken, hcase]
      dsimp only
      by_cases hlast : x.stop = d.stop
      · rw [if_pos hlast, if_pos (hstop.1 hlast)]
        exact finish_alike hadd true true
      · rw [if_neg hlast, if_neg (mt hstop.2 hlast)]
        exact .throw fun _ => hdollar hcase hlast
    | reference c =>
      rw [readLexemes, readLexemes, hx, hy]
      rw [← htoken, hcase]
      exact hon true true _ _ (hadd.reference _ _ c)
    | call b fn blanks =>
      rw [readLexemes, readLexemes, hx, hy]
      rw [← htoken, hcase]
      exact hon true true _ _ (hadd.enter (.call .nil) b)

end Lexeme

/-- **Reading goes the same way on two lines with one text.** -/
theorem readLexemes_alike (htext : d.text = d'.text) {xs ys : List Lexeme}
    (hxs : List.Forall₂ (Lexeme.Twin d d') xs ys)
    (hdollar : ∀ x ∈ xs, x.token = .dollar → x.stop ≠ d.stop → P)
    (hst : st.Twin st') (tail : Text) (fresh fresh' : Bool) :
    EndAlike (IndexOnly P) (Read.Twin d d') (readLexemes d m stops tail fresh st xs)
      (readLexemes d' m stops tail fresh' st' ys) := by
  induction hxs generalizing st st' fresh fresh' with
  | nil =>
    rw [readLexemes_nil, readLexemes_nil, hst.mode]
    exact finish_alike (hst.addText _) _ _
  | @cons x y xs ys hx hxs ih =>
    obtain ⟨hdollar, hrest⟩ := forall_mem_cons.1 hdollar
    refine readLexeme_alike hx.token hx.start (fun b b' u u' hu => ih hrest hu b b')
      htext hdollar ?_
    rw [← hst.mode, ← hst.tokens, ← read_twin hx]
    cases (st.mode m).read (st.tokens stops) x with
    | ended s => exact .ended (hst.addText s)
    | plain s => exact .plain (hst.addText s)
    | found s => exact .found (hst.addText s)

/-! ## One text in two states -/

theorem twinItems_ofText_append (w s : Text) :
    TwinItems (ofText (w ++ s)) (ofText w ++ ofText s) := by
  have hplain (s : Text) : unplacedItems (ofText s) = ofText s := by
    unfold ofText
    split <;> rfl
  refine ⟨(twinItems_ofText _).left, ((twinItems_ofText w).append (twinItems_ofText s)).left, ?_⟩
  rw [unplacedItems_append, hplain, hplain, hplain, glyphs_append, glyphs_ofText,
    glyphs_ofText, glyphs_ofText, Glyph.ofText_append]

/-- Text that waits is gathered with the text after it, or before that. -/
theorem Reader.Twin.addText_addText (h : st.Twin st') (w s : Text) :
    (st.addText (w ++ s)).Twin ((st'.addText w).addText s) := by
  rw [addText_eq_gather, addText_eq_gather, addText_eq_gather, gather_gather]
  exact h.gather (twinItems_ofText_append w s)

/-- **Reading goes the same way in twin states**, also if some of their text still waits to be
gathered. -/
theorem resume_alike {before before' : Text} (ho : d.start ≤ o)
    (h : ∀ w, (st.addText (before.reverse ++ w)).Twin (st'.addText (before'.reverse ++ w)))
    (fresh fresh' : Bool)
    (s : Text) :
    EndAlike (IndexOnly True) (Read.Twin d d) (resume d .data stops fresh st before o s)
      (resume d .data stops fresh' st' before' o s) := by
  induction s generalizing before before' o with
  | nil =>
    have hend := h []
    rw [append_nil, append_nil] at hend
    unfold resume
    rw [Lexeme.scan, Lexeme.scan, readLexemes_nil, readLexemes_nil]
    exact finish_alike hend _ _
  | cons c s ih =>
    cases ht : Token.match? (c :: s) with
    | none =>
      rw [resume_shift ht, resume_shift ht]
      exact ih (Nat.le_succ_of_le ho) fun w => by simpa using h (c :: w)
    | some t =>
      obtain ⟨rest, hrest⟩ := Token.exists_append_of_match? ht
      have hlevel : Line.Level d d o o := ⟨o - d.start, by omega, by omega⟩
      have hlexemes := (Lexeme.scan_twin [] rest (hlevel.add t.text.length)).2
      have hnow := h []
      rw [append_nil, append_nil] at hnow
      have htokens : st.tokens stops = st'.tokens stops := by
        rw [← Reader.tokens_addText st before.reverse, hnow.tokens, Reader.tokens_addText]
      rw [hrest] at ht ⊢
      unfold resume
      rw [scan_token ht, scan_token ht]
      refine readLexeme_alike rfl hlevel (fun b b' u u' hu => ?_) rfl (fun _ _ => trivial) ?_
      · exact readLexemes_alike rfl hlexemes (fun _ _ _ _ => trivial) hu _ b b'
      · rw [show st.mode .data = .data from rfl, show st'.mode .data = .data from rfl, ← htokens]
        dsimp only [Mode.read, Mode.flat]
        split
        · exact .found hnow
        · exact .plain (h t.text)

/-- **Two lines with one text are read alike**, and the reader goes beyond the end of the text only
for a dollar sign before the newline that ends it. -/
theorem parse_alike (htext : d.text = d'.text) (hlevel : Line.Level d d' o o')
    (stops : List Text) (m : Mode) :
    EndAlike (IndexOnly (∃ u, d.rest o = u ++ ['$', '\n'])) (Read.Twin d d') (parse d o stops m)
      (parse d' o' stops m) := by
  unfold parse
  rw [← hlevel.covers htext]
  split
  · rename_i hcovers
    obtain ⟨htail, hxs⟩ := Lexeme.scan_twin [] (d.rest o) hlevel
    have hdollar : ∀ x ∈ (d.lexemes o).1, x.token = .dollar → x.stop ≠ d.stop →
        ∃ u, d.rest o = u ++ ['$', '\n'] :=
      fun x hx htoken hstop => rest_of_dollar (Lexeme.standsIn_lexemes hcovers x hx) htoken
        hstop hcovers
    unfold Line.lexemes at hdollar ⊢
    dsimp only
    rw [← hlevel.rest htext, ← htail]
    exact readLexemes_alike htext hxs hdollar twin_start _ true true
  · exact .throw nofun

/-- A line beside itself. -/
theorem parse_alike_self (d : Line) (o : Nat) (stops : List Text) (m : Mode) :
    EndAlike (IndexOnly (∃ u, d.rest o = u ++ ['$', '\n'])) (Read.Twin d d) (parse d o stops m)
      (parse d o stops m) := by
  by_cases hstart : d.start ≤ o
  · exact parse_alike rfl ⟨o - d.start, by omega, by omega⟩ stops m
  · unfold parse
    rw [if_neg (by simp [Line.covers, hstart])]
    exact .throw nofun

end Expansion

end Rebuild
