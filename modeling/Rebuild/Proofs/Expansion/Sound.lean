import Rebuild.Proofs.Computation
import Rebuild.Proofs.Expansion.Marks
/-!
# The reader of expansions is sound

The reader is a stack machine: every lexeme leads from one stack of open references to another. A
token that is read in a state is one that the innermost open reference waits for, and an open call
can take one more argument (`Reader.Sound`). This holds of every state that can be reached, so the
reader ends in one of few ways (`Ends`): with an expansion whose calls have as many arguments as
their functions take, for too few arguments of a call, for a reference that is still open, or at a
dollar sign before the newline that ends the text.
-/

namespace Rebuild

open List Token

variable {s tail : Text} {r : Reference} {fresh : Bool}

/-! ## Where lexemes stand -/

namespace Lexeme

variable {d : Line} {offset : Nat} {x : Lexeme}

/-- The token of a lexeme is found in a line where the lexeme says, not before an offset. -/
def StandsIn (d : Line) (offset : Nat) (x : Lexeme) : Prop :=
  offset ≤ x.start ∧ ∃ u v, d.text = u ++ (x.token.text ++ v) ∧ x.start = d.start + u.length ∧
    match? (x.token.text ++ v) = some x.token

theorem standsIn_scan {before w : Text} {o : Nat} (hd : d.text = w ++ s)
    (ho : o = d.start + w.length)
    (hle : offset ≤ o) : ∀ x ∈ (scan before o s).1, x.StandsIn d offset := by
  fun_induction scan before o s generalizing w with
  | case1 => simp
  | case2 before o c rest hnone ih =>
    exact ih (w := w ++ [c]) (by simp [hd]) (by simp [ho]; omega) (by omega)
  | case3 before o c rest token hsome n tail =>
    rename_i ih
    obtain ⟨v, hv⟩ := exists_append_of_match? hsome
    obtain ⟨a, t, ht⟩ := exists_cons_of_ne_nil (text_ne_nil_of_match? hsome)
    have hrest : rest.drop (n - 1) = v := by
      rw [ht, cons_append] at hv
      rw [(List.cons.inj hv).2]
      simp [n, ht]
    intro x hx
    rcases mem_cons.1 hx with rfl | hx
    · exact ⟨hle, w, v, by rw [hd, hv], ho, by rw [← hv, hsome]⟩
    · refine ih (w := w ++ token.text) ?_ ?_ (by omega) x hx
      · rw [hd, hrest, hv, append_assoc]
      · rw [ho, length_append, Nat.add_assoc]

theorem standsIn_lexemes (hcovers : d.covers offset = true) :
    ∀ x ∈ (d.lexemes offset).1, x.StandsIn d offset := by
  have hstart : d.start ≤ offset := of_decide_eq_true (Bool.and_eq_true_iff.1 hcovers).1
  have hstop : offset ≤ d.start + d.text.length :=
    of_decide_eq_true (Bool.and_eq_true_iff.1 hcovers).2
  refine standsIn_scan (take_append_drop (offset - d.start) d.text).symm ?_ le_rfl
  rw [length_take]
  omega

end Lexeme

/-! ## Calls with as many arguments as their functions take -/

namespace Builtin

/-- The function can be given so many arguments. -/
def Takes (f : Builtin) (n : Nat) : Prop := f.minArgs ≤ n ∧ ∀ k ∈ f.maxArgs?, n ≤ k

theorem one_le_minArgs (f : Builtin) : 1 ≤ f.minArgs := by cases f <;> decide

theorem not_any_maxArgs {f : Builtin} {n : Nat} (h : ∀ k ∈ f.maxArgs?, n ≤ k) :
    ¬ f.maxArgs?.any (· < n) = true := by
  cases hk : f.maxArgs? with
  | none => simp
  | some k => simpa using h k hk

theorem minArgs_le (f : Builtin) : ∀ k ∈ f.maxArgs?, f.minArgs ≤ k := by cases f <;> decide

end Builtin

namespace Expansion

open Reader

mutual

/-- A sequence has a reference in it, and every call has as many arguments as its function takes. -/
def Proper : Expansion → Prop
  | .literal _ _ => True
  | .sequence xs _ => Item.hasRef xs = true ∧ ProperItems xs

/-- The references of a list of items are proper. -/
def ProperItems : List Item → Prop
  | [] => True
  | .text _ :: rest => ProperItems rest
  | .ref r :: rest => ProperRef r ∧ ProperItems rest

/-- The parts of a reference are proper, and a call has as many arguments as its function takes. -/
def ProperRef : Reference → Prop
  | .variable _ n => n.Proper
  | .substitution _ n p r => n.Proper ∧ p.Proper ∧ r.Proper
  | .call _ fn args => fn.Takes args.length ∧ ProperArgs args

/-- The arguments are proper. -/
def ProperArgs : List Expansion → Prop
  | [] => True
  | e :: rest => e.Proper ∧ ProperArgs rest

end

variable {xs ys : List Item} {loc : Option Location} {e : Expansion} {args : List Expansion}
  {fn : Builtin}

theorem properItems_iff : ProperItems xs ↔ ∀ r, .ref r ∈ xs → ProperRef r := by
  induction xs with
  | nil => simp [ProperItems]
  | cons i xs ih =>
    cases i with
    | text s => simpa [ProperItems] using ih
    | ref r =>
      simp only [ProperItems, ih, mem_cons, Item.ref.injEq]
      constructor
      · rintro ⟨hr, hxs⟩ r' (rfl | hr')
        · exact hr
        · exact hxs r' hr'
      · intro h
        exact ⟨h r (.inl rfl), fun r' hr' => h r' (.inr hr')⟩

theorem properArgs_iff : ProperArgs args ↔ ∀ e ∈ args, e.Proper := by
  induction args with
  | nil => simp [ProperArgs]
  | cons e args ih => simp [ProperArgs, ih]

theorem hasRef_iff : Item.hasRef xs = true ↔ ∃ r, .ref r ∈ xs := by
  unfold Item.hasRef
  rw [any_eq_true]
  constructor
  · rintro ⟨i, hi, h⟩
    cases i with
    | text s => cases h
    | ref r => exact ⟨r, hi⟩
  · rintro ⟨r, hr⟩
    exact ⟨_, hr, rfl⟩

/-- The references of a sequence decide whether it is proper. -/
theorem proper_sequence (hrefs : ∀ r, .ref r ∈ ys ↔ .ref r ∈ xs) :
    Proper (.sequence ys loc) ↔ Proper (.sequence xs loc) := by
  simp only [Proper, hasRef_iff, properItems_iff, hrefs]

theorem properItems_append : ProperItems (xs ++ ys) ↔ ProperItems xs ∧ ProperItems ys := by
  simp only [properItems_iff, mem_append, or_imp, forall_and]

theorem properItems_reverse : ProperItems xs.reverse ↔ ProperItems xs := by
  simp only [properItems_iff, mem_reverse]

theorem ref_mem_merge : .ref r ∈ Item.merge xs ↔ .ref r ∈ xs := by
  induction xs with
  | nil => rfl
  | cons i xs ih =>
    cases i with
    | ref r' => simp [Item.merge, ih]
    | text s =>
      rw [Item.merge, mem_cons, ← ih]
      split
      · rename_i t more hmerge
        simp [hmerge]
      · split <;> simp

theorem ofItems_proper (h : ProperItems xs) (loc : Option Location) : (ofItems xs loc).Proper := by
  unfold ofItems
  split
  · rename_i href
    exact (proper_sequence fun _ => ref_mem_merge).2 ⟨href, h⟩
  · trivial

/-! ## Trimming -/

theorem ref_mem_trimLeft : .ref r ∈ Item.trimLeft xs ↔ .ref r ∈ xs := by
  fun_induction Item.trimLeft xs <;> simp_all

theorem ref_mem_trimRightRev : .ref r ∈ Item.trimRightRev xs ↔ .ref r ∈ xs := by
  fun_induction Item.trimRightRev xs <;> simp_all

theorem ref_mem_trimRight : .ref r ∈ Item.trimRight xs ↔ .ref r ∈ xs := by
  unfold Item.trimRight
  rw [mem_reverse, ref_mem_trimRightRev, mem_reverse]

theorem Proper.trimmed (h : e.Proper) : e.trimmed = .ok e := by
  rcases e with ⟨s, l⟩ | ⟨_ | ⟨i, xs⟩, l⟩
  · rfl
  · cases h.1
  · rfl

theorem Proper.trimLeft? (h : e.Proper) : ∃ e', e.trimLeft? = .ok e' ∧ e'.Proper := by
  have hleft : e.trimLeft.Proper := by
    cases e with
    | literal s l => trivial
    | sequence xs l => exact (proper_sequence fun _ => ref_mem_trimLeft).2 h
  exact ⟨_, hleft.trimmed, hleft⟩

theorem Proper.trimRight? (h : e.Proper) : ∃ e', e.trimRight? = .ok e' ∧ e'.Proper := by
  have hright : e.trimRight.Proper := by
    cases e with
    | literal s l => trivial
    | sequence xs l => exact (proper_sequence fun _ => ref_mem_trimRight).2 h
  exact ⟨_, hright.trimmed, hright⟩

/-- A call that is not given too many arguments is complete, or has too few. -/
theorem makeCall_ends (hargs : ProperArgs args) (hmax : ∀ k ∈ fn.maxArgs?, args.length ≤ k)
    (loc : Location) :
    (∃ r, makeCall loc fn args = .ok r ∧ ProperRef r) ∨ args.length < fn.minArgs ∧
      makeCall loc fn args = .error (.refused (.fewArguments fn.name fn.minArgs) (some loc)) := by
  by_cases hmin : args.length < fn.minArgs
  · exact .inr ⟨hmin, if_pos hmin⟩
  · have htakes : fn.Takes args.length := ⟨not_lt.1 hmin, hmax⟩
    unfold makeCall
    rw [if_neg hmin, if_neg (Builtin.not_any_maxArgs hmax)]
    split
    · rename_i c rest
      obtain ⟨c1, hc1, hproper1⟩ := hargs.1.trimLeft?
      obtain ⟨c2, hc2, hproper2⟩ := hproper1.trimRight?
      refine .inl ⟨.call (some loc) .cond (c2 :: rest), ?_, htakes, hproper2, hargs.2⟩
      rw [hc1]
      show (c1.trimRight? >>= _) = _
      rw [hc2]
      rfl
    · exact .inl ⟨_, rfl, htakes, hargs⟩

/-! ## The states of the reader -/

section Machine

variable {d : Line} {m : Mode} {stops : List Text} {st st' : Reader} {f : Frame} {fs : List Frame}
  {x : Lexeme} {before later : List Lexeme} {offset : Nat} {ns ns' : List Notice}
  {b : Brace} {blanks : Text}

/-- The parts of an open reference that are complete are proper, and a call can take one more
argument. -/
def Role.Sound : Role → Prop
  | .call _ fn args => ProperArgs args ∧ ∀ k ∈ fn.maxArgs?, args.length < k
  | .name _ => True
  | .pattern _ n => ProperItems n
  | .replacement _ n p => ProperItems n ∧ ProperItems p

/-- The lexeme begins a reference in a kind of parenthesis. -/
def Role.BegunBy (d : Line) (b : Brace) (x : Lexeme) : Role → Prop
  | .call loc fn _ => loc = d.locAt x.start ∧ ∃ blanks, x.token = .call b fn blanks
  | .name loc | .pattern loc _ | .replacement loc _ _ =>
    loc = d.locAt x.start ∧ x.token = .reference b.opening

/-- An open reference is sound, and one of the lexemes has begun it. -/
structure Frame.Sound (d : Line) (xs : List Lexeme) (f : Frame) : Prop where
  gathered : ProperItems f.gathered
  role : f.role.Sound
  begun : ∃ x ∈ xs, f.role.BegunBy d f.brace x

/-- All that was gathered is proper, and all open references are sound. -/
structure Reader.Sound (d : Line) (xs : List Lexeme) (st : Reader) : Prop where
  outer : ProperItems st.outer
  frames : ∀ f ∈ st.frames, f.Sound d xs

/-- A lexeme leads the reader from one state to another. -/
inductive Reader.Goes (d : Line) (m : Mode) (stops : List Text) (st : Reader) (x : Lexeme) :
    Reader → Prop
  | plain {s : Text} (read : (st.mode m).read (st.tokens stops) x = .plain s) :
      Goes d m stops st x (st.addText s)
  | reference {s : Text} {c : Char} (read : (st.mode m).read (st.tokens stops) x = .found s)
      (token : x.token = .reference c) : Goes d m stops st x
        ((st.addText s).reference (d.locAt x.start) c)
  | call {s blanks : Text} {b : Brace} {fn : Builtin}
      (read : (st.mode m).read (st.tokens stops) x = .found s)
      (token : x.token = .call b fn blanks) :
      Goes d m stops st x ((st.addText s).enter b (.call (d.locAt x.start) fn []))
  | mark {s : Text} {f : Frame} {fs : List Frame} {st' : Reader} {ns ns' : List Notice}
      (read : (st.mode m).read (st.tokens stops) x = .found s) (token : x.token.isReference = false)
      (top : (st.addText s).frames = f :: fs)
      (gives : Gives ((st.addText s).mark f x.token.text) ns st' ns') :
      Goes d m stops st x st'

/-- The lexemes lead the reader to a state. -/
inductive Reader.Reached (d : Line) (m : Mode) (stops : List Text) : List Lexeme → Reader → Prop
  | start : Reached d m stops [] ⟨[], []⟩
  | step {before : List Lexeme} {x : Lexeme} {st st' : Reader}
      (reached : Reached d m stops before st)
      (goes : st.Goes d m stops x st') : Reached d m stops (before ++ [x]) st'

namespace Reader

section

variable (h : st.Sound d before)
include h

theorem Sound.mono (hsub : before ⊆ later) : st.Sound d later where
  outer := h.outer
  frames f hf := { h.frames f hf with
    begun := (h.frames f hf).begun.imp fun _ hx => ⟨hsub hx.1, hx.2⟩ }

theorem Sound.add {i : Item} (hi : ProperItems [i]) : (st.add i).Sound d before := by
  have hcons {xs : List Item} (hxs : ProperItems xs) : ProperItems (i :: xs) :=
    properItems_append.2 ⟨hi, hxs⟩
  unfold Reader.add
  split
  · exact ⟨hcons h.outer, h.frames⟩
  · rename_i f fs hfs
    have hframes := h.frames
    rw [hfs] at hframes
    obtain ⟨hf, hrest⟩ := forall_mem_cons.1 hframes
    exact ⟨h.outer, forall_mem_cons.2 ⟨⟨hcons hf.gathered, hf.role, hf.begun⟩, hrest⟩⟩

theorem Sound.addText (s : Text) : (st.addText s).Sound d before := by
  unfold Reader.addText
  split
  · exact h
  · exact h.add trivial

theorem Sound.enter {role : Role} (hrole : role.Sound)
    (hbegun : ∃ x ∈ before, role.BegunBy d b x) : (st.enter b role).Sound d before :=
  ⟨h.outer, forall_mem_cons.2 ⟨⟨trivial, hrole, hbegun⟩, h.frames⟩⟩

theorem Sound.setTop (hf : f.Sound d before) : (st.setTop f).Sound d before :=
  ⟨h.outer, forall_mem_cons.2 ⟨hf, fun g hg => h.frames g (mem_of_mem_drop hg)⟩⟩

theorem Sound.leave (hr : ProperRef r) : (st.leave r).Sound d before := by
  have hdrop : Reader.Sound d before { st with frames := st.frames.drop 1 } :=
    ⟨h.outer, fun g hg => h.frames g (mem_of_mem_drop hg)⟩
  exact hdrop.add ⟨hr, trivial⟩

end

/-! ## One mark -/

/-- How a mark is taken up: it leads to a sound state, or it ends a call that has too few
arguments. -/
def TakenUp (d : Line) (before : List Lexeme) (f : Frame) (ns : List Notice) (p : ParseM Reader) :
    Prop :=
  (∃ st' ns', Gives p ns st' ns' ∧ st'.Sound d before) ∨ ∃ loc fn args, f.role = .call loc fn args ∧
    args.length + 1 < fn.minArgs ∧
    Fails p ns (.refused (.fewArguments fn.name fn.minArgs) (some loc)) ns

theorem Sound.close (h : st.Sound d before) (hf : f.Sound d before) (ns : List Notice) :
    TakenUp d before f ns (st.close f) := by
  have hpart : ProperItems f.gathered.reverse := properItems_reverse.2 hf.gathered
  have hexp := ofItems_proper hpart none
  have hrole := hf.role
  unfold Reader.close
  dsimp only
  split
  · rename_i loc fn args hcall
    rw [hcall] at hrole
    have hargs : ProperArgs (ofItems f.gathered.reverse none :: args).reverse :=
      properArgs_iff.2 fun e he => properArgs_iff.1
        (show ProperArgs (_ :: args) from ⟨hexp, hrole.1⟩) e
        (mem_reverse.1 he)
    have hmax : ∀ k ∈ fn.maxArgs?, (ofItems f.gathered.reverse none :: args).reverse.length ≤
        k := by
      intro k hk
      rw [length_reverse, length_cons]
      exact hrole.2 k hk
    rcases makeCall_ends hargs hmax loc with ⟨r, hr, hproper⟩ | ⟨hfew, herror⟩
    · exact .inl ⟨st.leave r, ns, by rw [hr]; rfl, h.leave hproper⟩
    · refine .inr ⟨loc, fn, args, hcall, by simpa using hfew, ?_⟩
      rw [herror]
      rfl
  · exact .inl ⟨_, ns, rfl, h.leave hexp⟩
  · rename_i loc name hname
    rw [hname] at hrole
    refine .inl ⟨_, _, rfl, h.leave (ofItems_proper ?_ none)⟩
    exact properItems_append.2 ⟨properItems_append.2 ⟨hrole, trivial⟩, hpart⟩
  · rename_i loc name pattern hname
    rw [hname] at hrole
    exact .inl
      ⟨_, ns, rfl, h.leave ⟨ofItems_proper hrole.1 none, ofItems_proper hrole.2 none, hexp⟩⟩

theorem sound_next (hf : f.Sound d before) (hs : s ∈ f.role.marks) :
    Frame.Sound d before { f with gathered := [], role := f.role.next f.gathered.reverse } := by
  obtain ⟨hgathered, hrole, hbegun⟩ := hf
  have hpart : ProperItems f.gathered.reverse := properItems_reverse.2 hgathered
  refine ⟨trivial, ?_, ?_⟩
  all_goals cases hr : f.role <;> rw [hr] at hs hrole hbegun
  case refine_1.call loc fn args =>
    refine ⟨⟨ofItems_proper hpart none, hrole.1⟩, fun k hk => ?_⟩
    have hlast := (Role.mem_marks_call.1 hs).2
    have hne : k ≠ args.length + 1 := by
      rintro rfl
      simp [Builtin.lastAfter, Option.mem_def.1 hk] at hlast
    have hlt := hrole.2 k hk
    rw [length_cons]
    omega
  case refine_1.name => exact hpart
  case refine_1.pattern => exact ⟨hrole, hpart⟩
  case refine_1.replacement => cases hs
  all_goals exact hbegun

/-- **A mark that an open reference waits for is taken up.** -/
theorem Sound.mark (h : st.Sound d before) (hf : f.Sound d before) (hs : s ∈ f.tokens)
    (hdollar : s ≠ ['$'])
    (ns : List Notice) : TakenUp d before f ns (st.mark f s) := by
  have htop {g : Frame} (hg : g.Sound d before) : TakenUp d before f ns (pure (st.setTop g)) :=
    .inl ⟨_, ns, rfl, h.setTop hg⟩
  have htakes := takes_mark hs hdollar st
  generalize st.mark f s = p at htakes
  cases htakes with
  | opening | inner => exact htop ⟨hf.gathered, hf.role, hf.begun⟩
  | closing => exact h.close hf ns
  | awaited _ mark => exact htop (sound_next hf mark)

/-! ## All states that can be reached -/

theorem wants_of_read (h : (st.mode m).read (st.tokens stops) x = .found s) :
    Mode.wants (st.tokens stops) x.token = true := by
  by_contra hwants
  have hordinary : (st.mode m).read (st.tokens stops) x ≠ .found s := by
    unfold Mode.read
    dsimp only
    rw [if_neg hwants]
    split
    · split
      · split <;> nofun
      · nofun
    · nofun
  exact hordinary h

theorem mem_tokens_of_read (hread : (st.mode m).read (st.tokens stops) x = .found s)
    (htoken : x.token.isReference = false) (htop : (st.addText s).frames = f :: fs) :
    x.token.text ∈ f.tokens := by
  have hwants := wants_of_read hread
  have htokens : st.tokens stops = f.tokens := by
    rw [← tokens_addText st s stops]
    unfold tokens
    rw [htop]
  rw [htokens] at hwants
  simpa [Mode.wants, htoken] using hwants

/-- No mark is a single dollar sign. -/
theorem text_ne_dollar (hx : x.StandsIn d offset) (htoken : x.token.isReference = false) :
    x.token.text ≠ ['$'] := by
  obtain ⟨-, u, v, -, -, hmatch⟩ := hx
  intro htext
  exact head_ne_dollar hmatch htoken (by rw [htext]; rfl)

theorem Sound.reference (h : st.Sound d (before ++ [x])) {c : Char}
    (htoken : x.token = .reference c) :
    (st.reference (d.locAt x.start) c).Sound d (before ++ [x]) := by
  unfold Reader.reference
  split
  · exact h.addText _
  · split
    · rename_i b hb
      refine h.enter trivial ⟨x, by simp, rfl, ?_⟩
      rw [htoken, opening_of_ofOpening? hb]
    · exact h.add ⟨trivial, trivial⟩

/-- **Every lexeme keeps the reader sound.** -/
theorem Sound.goes (h : st.Sound d before) (hx : x.StandsIn d offset)
    (hgoes : st.Goes d m stops x st') :
    st'.Sound d (before ++ [x]) := by
  have hsound : st.Sound d (before ++ [x]) := h.mono (subset_append_left _ _)
  cases hgoes with
  | plain read => exact hsound.addText _
  | reference read token => exact (hsound.addText _).reference token
  | @call s blanks b fn read token =>
    refine (hsound.addText s).enter ⟨trivial, fun k hk => ?_⟩ ⟨x, by simp, rfl, blanks, token⟩
    exact lt_of_lt_of_le (Nat.lt_of_lt_of_le Nat.zero_lt_one fn.one_le_minArgs) (fn.minArgs_le k hk)
  | @mark s f fs st' ns ns' read token top gives =>
    have hst := hsound.addText s
    have hf : f.Sound d (before ++ [x]) := hst.frames f (top ▸ mem_cons_self)
    rcases hst.mark hf (mem_tokens_of_read read token top) (text_ne_dollar hx token) ns with
      ⟨st1, ns1, hgives, hst1⟩ | ⟨loc, fn, args, -, -, hfails⟩
    · obtain ⟨rfl, -⟩ := hgives.unique gives
      exact hst1
    · unfold Gives at gives
      rw [hfails] at gives
      cases gives

/-- **Every state that can be reached is sound.** -/
theorem Reached.sound (hall : ∀ x ∈ before, x.StandsIn d offset) (h : Reached d m stops before st) :
    st.Sound d before := by
  induction h with
  | start => exact ⟨trivial, nofun⟩
  | @step before x st st' reached goes ih =>
    exact (ih fun y hy => hall y (mem_append_left _ hy)).goes (hall x (by simp)) goes

end Reader

/-! ## How reading ends -/

/-- The lexemes of a line from an offset on lead to a state, and no further one leads on from it. -/
def Reader.Final (d : Line) (offset : Nat) (m : Mode) (stops : List Text) (st : Reader) : Prop :=
  ∃ before, before <+: (d.lexemes offset).1 ∧ st.Reached d m stops before ∧
    ∀ x st', before ++ [x] <+: (d.lexemes offset).1 → ¬ st.Goes d m stops x st'

/-- How reading a line from an offset on can end. -/
inductive Ends (d : Line) (offset : Nat) (m : Mode) (stops : List Text) : Except Error Read → Prop
  /-- A token that was asked for stands before the offset that is given. -/
  | stopped {e : Expansion} {t : Token} {u v : Text} (proper : e.Proper) (asked : t.text ∈ stops)
      (text : d.rest offset = u ++ (t.text ++ v)) :
      Ends d offset m stops (.ok ⟨e, some (t, offset + u.length + t.text.length)⟩)
  /-- The text is used up, and no reference is open. -/
  | used {e : Expansion} {st : Reader} (proper : e.Proper) (final : st.Final d offset m stops)
      (closed : st.frames = []) : Ends d offset m stops (.ok ⟨e, none⟩)
  /-- A call is closed that has too few arguments. -/
  | fewArguments {x : Lexeme} {b : Brace} {fn : Builtin} {blanks : Text} {before : List Lexeme}
      {st : Reader}
      {f : Frame} {args : List Expansion} (within : before <+: (d.lexemes offset).1)
      (reached : st.Reached d m stops before) (innermost : f ∈ st.frames.head?)
      (lexeme : x ∈ before)
      (token : x.token = .call b fn blanks) (role : f.role = .call (d.locAt x.start) fn args)
      (few : args.length + 1 < fn.minArgs) :
      Ends d offset m stops
        (.error (.refused (.fewArguments fn.name fn.minArgs) (some (d.locAt x.start))))
  /-- The text is used up, and a reference is still open. -/
  | callOpen {e : Error} {st : Reader} (final : st.Final d offset m stops) (isOpen : st.frames ≠ [])
      (error : e = .malformed .callOpen (some (d.locAt d.stop)) ∨ e = .breach .shape) :
      Ends d offset m stops (.error e)
  /-- A dollar sign stands before the newline that ends the text. -/
  | dollar {u : Text} (text : d.rest offset = u ++ ['$', '\n']) :
      Ends d offset m stops (.error (.breach .index))

theorem frames_addText (st : Reader) (s : Text) : (st.addText s).frames = [] ↔ st.frames = [] := by
  unfold addText
  split
  · rfl
  · unfold add
    split
    · rename_i h
      simp [h]
    · rename_i h
      simp [h]

theorem role_addText (htop : (st.addText s).frames = f :: fs) :
    ∃ g ∈ st.frames.head?, g.role = f.role := by
  unfold addText at htop
  split at htop
  · exact ⟨f, by rw [htop]; rfl, rfl⟩
  · unfold add at htop
    split at htop
    · rename_i h
      simp [h] at htop
    · rename_i g gs h
      cases htop
      exact ⟨g, by rw [h]; rfl, rfl⟩

theorem finish_ends (hall : ∀ x ∈ (d.lexemes offset).1, x.StandsIn d offset)
    (h : st.Final d offset m stops)
    (s : Text) (located : Bool) :
    Ends d offset m stops (((st.addText s).finish d located).run ns).1 := by
  obtain ⟨before, hpre, hreached, -⟩ := id h
  have hsound := (hreached.sound fun x hx => hall x (hpre.subset hx)).addText s
  unfold Reader.finish
  split
  · rename_i hclosed
    refine .used (ofItems_proper (properItems_reverse.2 hsound.outer) _) h ?_
    exact (frames_addText st s).1 (List.isEmpty_iff.1 hclosed)
  · rename_i hopen
    have hframes : st.frames ≠ [] :=
      fun hnil => hopen (List.isEmpty_iff.2 ((frames_addText st s).2 hnil))
    split
    · exact .callOpen h hframes (.inl rfl)
    · exact .callOpen h hframes (.inr rfl)

/-- A dollar sign that is a token by itself ends the text, but for a newline. -/
theorem rest_of_dollar (hx : x.StandsIn d offset) (htoken : x.token = .dollar)
    (hstop : x.stop ≠ d.stop)
    (hcovers : d.covers offset = true) : ∃ u, d.rest offset = u ++ ['$', '\n'] := by
  obtain ⟨hle, u, v, htext, hstart, hmatch⟩ := hx
  have hstart' : d.start ≤ offset := of_decide_eq_true (Bool.and_eq_true_iff.1 hcovers).1
  rw [htoken] at htext hmatch
  have hafter : afterDollar? v = some .dollar := hmatch
  have hv : v = [] ∨ v = ['\n'] := by
    unfold afterDollar? at hafter
    split at hafter
    · exact .inl rfl
    · exact .inr rfl
    · cases hafter
    · split at hafter
      · split at hafter <;> cases hafter
      · cases hafter
  rcases hv with rfl | rfl
  · refine absurd ?_ hstop
    unfold Lexeme.stop Line.stop
    rw [htoken, hstart, htext]
    simp [Nat.add_assoc]
  · refine ⟨u.drop (offset - d.start), ?_⟩
    unfold Line.rest
    rw [htext, drop_append_of_le_length (by omega)]
    rfl

theorem rest_of_standsIn (hx : x.StandsIn d offset) (hcovers : d.covers offset = true) :
    ∃ u v, d.rest offset = u ++ (x.token.text ++ v) ∧ x.start = offset + u.length := by
  obtain ⟨hle, u, v, htext, hstart, -⟩ := hx
  have hstart' : d.start ≤ offset := of_decide_eq_true (Bool.and_eq_true_iff.1 hcovers).1
  refine ⟨u.drop (offset - d.start), v, ?_, ?_⟩
  · unfold Line.rest
    rw [htext, drop_append_of_le_length (by omega)]
  · rw [length_drop]
    omega

section Marks

variable {xs : List Lexeme}
  (hread : (st.mode m).read (st.tokens stops) x = .found s) (htoken : x.token.isReference = false)

include hread htoken

/-- A mark that was asked for stops the reader, leads on, or ends a call that has too few
arguments. -/
theorem mark_ends (ns : List Notice) (hcovers : d.covers offset = true) (hround : ['('] ∉ stops)
    (hcurly : ['\x7b'] ∉ stops) (hall : ∀ x ∈ (d.lexemes offset).1, x.StandsIn d offset)
    (hpre : before <+: (d.lexemes offset).1) (hst : st.Reached d m stops before)
    (hx : x.StandsIn d offset)
    (hon : ∀ st' ns', st.Goes d m stops x st' →
      Ends d offset m stops ((readLexemes d m stops tail true st' xs).run ns').1) :
    Ends d offset m stops ((readLexemes d m stops tail fresh st (x :: xs)).run ns).1 := by
  have hdollar := text_ne_dollar hx htoken
  have hsound := (hst.sound fun y hy => hall y (hpre.subset hy)).addText s
  cases hframes : (st.addText s).frames with
  | nil =>
    have hasked : x.token.text ∈ stops := by
      have hwants := wants_of_read hread
      unfold tokens at hwants
      rw [(frames_addText st s).1 hframes] at hwants
      simpa [Mode.wants, htoken, hdollar] using hwants
    have hopen : ¬ (x.token.text == ['('] || x.token.text == ['\x7b']) = true := by
      rw [Bool.or_eq_true, beq_iff_eq, beq_iff_eq]
      rintro (h | h)
      · exact hround (h ▸ hasked)
      · exact hcurly (h ▸ hasked)
    obtain ⟨u, v, htext, hstart⟩ := rest_of_standsIn hx hcovers
    rw [readLexemes_mark_outside hread htoken hframes, if_neg hopen]
    unfold Lexeme.stop
    rw [hstart]
    exact .stopped (ofItems_proper (properItems_reverse.2 hsound.outer) _) hasked htext
  | cons f fs =>
    have hf : f.Sound d before := hsound.frames f (hframes ▸ mem_cons_self)
    rw [readLexemes_mark_inside hread htoken hframes, run_bind]
    rcases hsound.mark hf (mem_tokens_of_read hread htoken hframes) hdollar ns with
      ⟨st', ns', hgives, -⟩ | ⟨loc, fn, args, hrole, hfew, hfails⟩
    · rw [show _ = _ from hgives]
      exact hon st' ns' (.mark hread htoken hframes hgives)
    · obtain ⟨g, hg, hgrole⟩ := role_addText hframes
      have hbegun := hf.begun
      rw [hrole] at hbegun hgrole
      obtain ⟨y, hy, rfl, blanks, hcall⟩ := hbegun
      rw [show _ = _ from hfails]
      exact .fewArguments hpre hst hg hy hcall hgrole hfew

end Marks

/-- A dollar sign that is a token by itself ends the reading. -/
theorem dollar_ends {xs : List Lexeme} (ns : List Notice)
    (hcovers : d.covers offset = true) (hall : ∀ x ∈ (d.lexemes offset).1, x.StandsIn d offset)
    (hx : x.StandsIn d offset) (hread : (st.mode m).read (st.tokens stops) x = .found s)
    (htoken : x.token = .dollar)
    (hfinal : st.Final d offset m stops) :
    Ends d offset m stops ((readLexemes d m stops tail fresh st (x :: xs)).run ns).1 := by
  rw [readLexemes, hread]
  rw [htoken]
  dsimp only
  split
  · exact finish_ends hall hfinal s true
  · rename_i hstop
    obtain ⟨u, hu⟩ := rest_of_dollar hx htoken hstop hcovers
    exact .dollar hu

/-- **From every state that can be reached, reading ends in one of the ways.** -/
theorem readLexemes_ends (hcovers : d.covers offset = true) (hround : ['('] ∉ stops)
    (hcurly : ['\x7b'] ∉ stops)
    (hall : ∀ x ∈ (d.lexemes offset).1, x.StandsIn d offset) {xs : List Lexeme}
    (hxs : before ++ xs = (d.lexemes offset).1) (hst : st.Reached d m stops before) (tail : Text)
    (fresh : Bool)
    (ns : List Notice) :
    Ends d offset m stops ((readLexemes d m stops tail fresh st xs).run ns).1 := by
  induction xs generalizing st before fresh ns with
  | nil =>
    have hfinal : st.Final d offset m stops := by
      refine ⟨before, ⟨[], hxs⟩, hst, fun x st' hpre => ?_⟩
      have hlen := hpre.length_le
      rw [← hxs, append_nil, length_append, length_singleton] at hlen
      omega
    rw [readLexemes]
    split
    · exact finish_ends (s := []) hall hfinal true
    · exact finish_ends hall hfinal _ false
  | cons x xs ih =>
    have hpre : before <+: (d.lexemes offset).1 := ⟨x :: xs, hxs⟩
    have hx := hall x (hxs ▸ by simp)
    have hxs' : (before ++ [x]) ++ xs = (d.lexemes offset).1 := by simpa using hxs
    have hon {st' : Reader} (fresh : Bool) (ns : List Notice) (hgoes : st.Goes d m stops x st') :
        Ends d offset m stops ((readLexemes d m stops tail fresh st' xs).run ns).1 := ih hxs'
          (.step hst hgoes) fresh ns
    -- the lexemes end here if this one does not lead on
    have hfinal (hno : ∀ st', ¬ st.Goes d m stops x st') : st.Final d offset m stops := by
      refine ⟨before, hpre, hst, fun y st' hy => ?_⟩
      rw [← hxs] at hy
      obtain ⟨rfl, -⟩ := cons_prefix_cons.1 ((prefix_append_right_inj before).1 hy)
      exact hno st'
    cases hread : (st.mode m).read (st.tokens stops) x with
    | ended s =>
      rw [readLexemes, hread]
      refine finish_ends hall (hfinal fun st' hgoes => ?_) s false
      cases hgoes <;> simp_all
    | plain s =>
      rw [readLexemes, hread]
      exact hon false ns (.plain hread)
    | found s =>
      cases htoken : x.token with
      | hash | mark =>
        have hmark : x.token.isReference = false := by rw [htoken]; rfl
        exact mark_ends hread hmark ns hcovers hround hcurly hall hpre hst hx
          fun st' ns' => hon true ns'
      | dollar =>
        refine dollar_ends ns hcovers hall hx hread htoken (hfinal fun st' hgoes => ?_)
        cases hgoes <;> simp_all [isReference]
      | reference c =>
        rw [readLexemes, hread]
        rw [htoken]
        exact hon true ns (.reference hread htoken)
      | call b fn blanks =>
        rw [readLexemes, hread]
        rw [htoken]
        exact hon true ns (.call hread htoken)

/-! ## The names of functions -/

/-- **A call names its function**: what follows the parenthesis, without the blanks at its end, is
the name of the function that is called. -/
theorem named?_of_standsIn (hx : x.StandsIn d offset) (htoken : x.token = .call b fn blanks) :
    Builtin.named? (Text.trimRight (x.token.text.drop 2)) = some fn := by
  obtain ⟨-, u, v, -, -, hmatch⟩ := hx
  rw [htoken] at hmatch ⊢
  have hblanks := (match?_call_iff.1 hmatch).1.2
  rw [show (call b fn blanks).text.drop 2 = fn.name ++ blanks from rfl,
    Text.trimRight_append_blanks hblanks]
  cases fn <;> rfl

end Machine

/-- **The reader is sound.** Every token that it meets stands in the line, and one that calls a
function names it. Every state that it comes to is sound: an open call has fewer arguments than its
function can take at most, and a complete one as many as it takes. And it ends in one of these ways:
before a token that was asked for, at the end of the text, for a call that has too few arguments,
for a reference that is still open at the end of the text, or for a dollar sign before the newline
that ends the text. -/
theorem parse_ends (d : Line) (offset : Nat) (m : Mode) (stops : List Text) (ns : List Notice)
    (hcovers : d.covers offset = true) (hround : ['('] ∉ stops) (hcurly : ['\x7b'] ∉ stops) :
    (∀ x ∈ (d.lexemes offset).1, x.StandsIn d offset ∧ ∀ b fn blanks, x.token = .call b fn blanks →
      Builtin.named? (Text.trimRight (x.token.text.drop 2)) = some fn) ∧
    (∀ before st, before <+: (d.lexemes offset).1 → Reader.Reached d m stops before st →
      st.Sound d before) ∧
    Ends d offset m stops ((parse d offset stops m).run ns).1 := by
  have hall := Lexeme.standsIn_lexemes hcovers
  refine ⟨fun x hx => ⟨hall x hx, fun b fn blanks => named?_of_standsIn (hall x hx)⟩, ?_, ?_⟩
  · intro before st hpre hreached
    exact hreached.sound fun x hx => hall x (hpre.subset hx)
  · unfold parse
    rw [if_pos hcovers]
    exact readLexemes_ends hcovers hround hcurly hall rfl .start _ true ns

/-- A call with a substitution and a reference in it, read up to a colon, and one that is not
closed. -/
theorem parse_ends_nested :
    Ends (Line.ofText "$(if a,$\x7bb:c=(d)\x7d,$(e)):x" "f") 0 (.makefile true) [[':']]
      ((parse (Line.ofText "$(if a,$\x7bb:c=(d)\x7d,$(e)):x" "f") 0 [[':']] (.makefile true)).run
        []).1 ∧
    Ends (Line.ofText "a$(if b,$(" "f") 1 .data []
      ((parse (Line.ofText "a$(if b,$(" "f") 1 [] .data).run []).1 :=
  ⟨(parse_ends _ 0 _ [[':']] [] (by decide) (by decide) (by decide)).2.2,
    (parse_ends _ 1 _ [] [] (by decide) (by decide) (by decide)).2.2⟩

end Expansion

end Rebuild
