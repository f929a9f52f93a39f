import Rebuild.Proofs.Expansion.Twin
import Rebuild.Proofs.Line.Pieces
import Rebuild.Proofs.Statement.Reading
/-!
# Reading lines in two places

Two statements are twins if their expansions are twins and if they are equal but for their locations
(`Twin`). One reader goes on from a list of statements, the other one from none: lines with the same
texts lead them on alike, if they agree on whether a rule is current (`readLines_alike`). Reading a
makefile beside itself gives that all expansions of its statements are in normal form
(`parse_normal`).
-/

namespace Rebuild

open List

/-! ## Without locations -/

/-- The place of what has no place. -/
def Location.nowhere : Location := ⟨[], 0, 0⟩

namespace Condition

/-- The expansions of a condition. -/
def expansions : Condition → List Expansion
  | .equal _ l r _ => [l, r]
  | .defined _ n _ => [n]
  | .otherwise _ => []

/-- The condition without its locations. -/
def unplaced : Condition → Condition
  | .equal _ l r b => .equal .nowhere l.unplaced r.unplaced b
  | .defined _ n b => .defined .nowhere n.unplaced b
  | .otherwise _ => .otherwise .nowhere

end Condition

namespace Assignment

/-- The expansions of an assignment; its value is a text. -/
def expansions (a : Assignment) : List Expansion := a.name :: a.targets.toList

/-- The assignment without its locations. -/
def unplaced (a : Assignment) : Assignment :=
  { a with
    name := a.name.unplaced
    valueLoc := .nowhere
    targets := a.targets.map Expansion.unplaced }

end Assignment

namespace Statement

mutual

/-- The expansions of a statement, with those of the statements in it. -/
def expansions : Statement → List Expansion
  | .rule t d _ => [t, d]
  | .staticRule t p d _ => [t, p, d]
  | .command e => [e]
  | .assign a => a.expansions
  | .block _ groups _ => expansionsGroups groups
  | .includes e _ _ => [e]
  | .vpath e => [e]
  | .exports e _ => [e]
  | .unexports e => [e]
  | .empty e => [e]

/-- The expansions of the groups of a block. -/
def expansionsGroups : List Group → List Expansion
  | [] => []
  | .mk c body :: groups => c.expansions ++ expansionsAll body ++ expansionsGroups groups

/-- The expansions of a list of statements. -/
def expansionsAll : List Statement → List Expansion
  | [] => []
  | s :: ss => s.expansions ++ expansionsAll ss

end

mutual

/-- The statement without its locations. -/
def unplaced : Statement → Statement
  | .rule t d c => .rule t.unplaced d.unplaced c
  | .staticRule t p d c => .staticRule t.unplaced p.unplaced d.unplaced c
  | .command e => .command e.unplaced
  | .assign a => .assign a.unplaced
  | .block _ groups _ => .block .nowhere (unplacedGroups groups) .nowhere
  | .includes e required weak => .includes e.unplaced required weak
  | .vpath e => .vpath e.unplaced
  | .exports e assigned => .exports e.unplaced assigned
  | .unexports e => .unexports e.unplaced
  | .empty e => .empty e.unplaced

/-- The groups of a block without their locations. -/
def unplacedGroups : List Group → List Group
  | [] => []
  | .mk c body :: groups => .mk c.unplaced (unplacedAll body) :: unplacedGroups groups

/-- The statements without their locations. -/
def unplacedAll : List Statement → List Statement
  | [] => []
  | s :: ss => s.unplaced :: unplacedAll ss

end

theorem unplacedAll_append (ss ts : List Statement) :
    unplacedAll (ss ++ ts) = unplacedAll ss ++ unplacedAll ts := by
  induction ss with
  | nil => rfl
  | cons s ss ih => rw [cons_append, unplacedAll, unplacedAll, ih, cons_append]

/-! ## Twins -/

/-- Two statements with twin expansions that are equal but for their locations. -/
structure Twin (s s' : Statement) : Prop where
  parts : List.Forall₂ Expansion.Twin s.expansions s'.expansions
  same : s.unplaced = s'.unplaced

end Statement

/-- Two conditions with twin expansions that are equal but for their locations. -/
structure Condition.Twin (c c' : Condition) : Prop where
  parts : List.Forall₂ Expansion.Twin c.expansions c'.expansions
  same : c.unplaced = c'.unplaced

/-- Two groups with twin conditions and twin statements. -/
structure Group.Twin (g g' : Group) : Prop where
  condition : g.condition.Twin g'.condition
  body : List.Forall₂ Statement.Twin g.body g'.body

variable {targets targets' : Option Expansion}

namespace Statement

variable {ss ss' : List Statement} {gs gs' : List Group} {t t' p p' e e' : Expansion}

theorem twinAll (h : List.Forall₂ Twin ss ss') :
    List.Forall₂ Expansion.Twin (expansionsAll ss) (expansionsAll ss') ∧
    unplacedAll ss = unplacedAll ss' := by
  induction h with
  | nil => exact ⟨.nil, rfl⟩
  | cons h _ ih => exact ⟨rel_append h.parts ih.1, by rw [unplacedAll, unplacedAll, h.same, ih.2]⟩

theorem twin_block (h : List.Forall₂ Group.Twin gs gs') (l l' m m' : Location) :
    Twin (.block l gs m) (.block l' gs' m') := by
  have hgroups : List.Forall₂ Expansion.Twin (expansionsGroups gs) (expansionsGroups gs') ∧
      unplacedGroups gs = unplacedGroups gs' := by
    induction h with
    | nil => exact ⟨.nil, rfl⟩
    | @cons g g' gs gs' h _ ih =>
      obtain ⟨c, body⟩ := g
      obtain ⟨c', body'⟩ := g'
      obtain ⟨hparts, hsame⟩ := twinAll h.body
      refine ⟨rel_append (rel_append h.condition.parts hparts) ih.1, ?_⟩
      have hc : c.unplaced = c'.unplaced := h.condition.same
      have hbody : unplacedAll body = unplacedAll body' := hsame
      rw [unplacedGroups, unplacedGroups, hc, hbody, ih.2]
  exact ⟨hgroups.1, by rw [unplaced, unplaced, hgroups.2]⟩

theorem twin_rule (ht : t.Twin t') (he : e.Twin e') (c : Bool) :
    Twin (.rule t e c) (.rule t' e' c) :=
  ⟨.cons ht (.cons he .nil), by rw [unplaced, unplaced, ht.same, he.same]⟩

theorem twin_staticRule (ht : t.Twin t') (hp : p.Twin p') (he : e.Twin e') (c : Bool) :
    Twin (.staticRule t p e c) (.staticRule t' p' e' c) :=
  ⟨.cons ht (.cons hp (.cons he .nil)), by rw [unplaced, unplaced, ht.same, hp.same, he.same]⟩

theorem twin_command (he : e.Twin e') : Twin (.command e) (.command e') :=
  ⟨.cons he .nil, by rw [unplaced, unplaced, he.same]⟩

theorem twin_assign (he : e.Twin e') (ht : Option.Rel Expansion.Twin targets targets')
    (mark : AssignMark) (value : Text) (l l' : Location) (origin : Origin) :
    Twin (.assign ⟨e, mark, value, l, targets, origin⟩)
      (.assign ⟨e', mark, value, l', targets', origin⟩) := by
  cases ht with
  | none => exact ⟨.cons he .nil, by simp only [unplaced, Assignment.unplaced, he.same]⟩
  | some ht =>
    exact ⟨.cons he (.cons ht .nil),
      by simp only [unplaced, Assignment.unplaced, he.same, Option.map_some, ht.same]⟩

end Statement

/-! ## Parts of a line -/

/-- Two lines with one text, which has no dollar sign before a newline at its end. -/
structure Line.Twin (d d' : Line) : Prop where
  text : d.text = d'.text
  ends : ¬ ['$', '\n'] <:+ d.text

namespace Statement

variable {d d' : Line} {o o' : Nat} {t t' e e' : Expansion}

/-- The readers end alike, and they do not fail for going beyond an end. -/
abbrev ReadAlike {α β : Type} (R : α → β → Prop) (x : ParseM α) (y : ParseM β) : Prop :=
  EndAlike (Expansion.IndexOnly False) R x y

section

variable (hd : d.Twin d') (ho : Line.Level d d' o o')
include hd ho

/-- **A logical line is read alike wherever it stands**, and never beyond its end. -/
theorem parseExp_alike (stops : List Text) (m : Mode) :
    ReadAlike (Expansion.Read.Twin d d') (Expansion.parse d o stops m)
      (Expansion.parse d' o' stops m) := by
  refine (Expansion.parse_alike hd.text ho stops m).mono (fun _ h hindex => ?_) fun _ _ h => h
  obtain ⟨u, hu⟩ := h hindex
  have hsuffix : ['$', '\n'] <:+ d.rest o := hu ▸ suffix_append u _
  exact hd.ends (hsuffix.trans (drop_suffix _ _))

theorem ensureEnd_alike (fault : SyntaxFault) :
    ReadAlike (fun _ _ => True) (ensureEnd d o fault) (ensureEnd d' o' fault) := by
  unfold ensureEnd
  rw [ho.flatten hd.text]
  split
  · exact .throw nofun
  · exact .pure trivial

theorem readSides_alike :
    ReadAlike (fun p p' => p.1.Twin p'.1 ∧ p.2.Twin p'.2) (readSides d o) (readSides d' o') := by
  unfold readSides
  rw [ho.char? hd.text]
  -- the sides stand in parentheses, in quotes, or nowhere
  split
  · refine .bind (parseExp_alike hd (ho.add 1) _ _) fun r r' hr => ?_
    cases hr with
    | used => exact .throw nofun
    | stopped he ho =>
      refine .bind (.lift he.trimRight?) fun l l' hl => ?_
      refine .bind (parseExp_alike hd (ho.skipBlanks hd.text) _ _) fun r r' hr => ?_
      cases hr with
      | used => exact .throw nofun
      | stopped he ho => exact .bind (ensureEnd_alike hd ho _) fun _ _ _ => .pure ⟨hl, he⟩
  · split
    · refine .bind (parseExp_alike hd (ho.add 1) _ _) fun r r' hr => ?_
      cases hr with
      | used => exact .throw nofun
      | stopped hl ho =>
        have ho := ho.skipBlanks hd.text
        dsimp only
        rw [ho.char? hd.text]
        split
        · exact .throw nofun
        split
        · refine .bind (parseExp_alike hd (ho.add 1) _ _) fun r r' hr => ?_
          cases hr with
          | used => exact .throw nofun
          | stopped he ho => exact .bind (ensureEnd_alike hd ho _) fun _ _ _ => .pure ⟨hl, he⟩
        · exact .throw nofun
    · exact .throw nofun
  · exact .throw nofun

theorem readCondition_alike (w : ConditionWord) (l l' : Location) :
    ReadAlike Condition.Twin (readCondition w l d o) (readCondition w l' d' o') := by
  have hequal (b : Bool) (p p' : Expansion × Expansion) (hp : p.1.Twin p'.1 ∧ p.2.Twin p'.2) :
      Condition.Twin (.equal l p.1 p.2 b) (.equal l' p'.1 p'.2 b) :=
    ⟨.cons hp.1 (.cons hp.2 .nil), by simp only [Condition.unplaced, hp.1.same, hp.2.same]⟩
  have hdefined (b : Bool) (e e' : Expansion) (he : e.Twin e') : Condition.Twin (.defined l e b)
      (.defined l' e' b) :=
    ⟨.cons he .nil, by simp only [Condition.unplaced, he.same]⟩
  cases w with
  | ifeq => exact .bind (readSides_alike hd ho) fun p p' hp => .pure (hequal true p p' hp)
  | ifneq => exact .bind (readSides_alike hd ho) fun p p' hp => .pure (hequal false p p' hp)
  | ifdef =>
    refine .bind (parseExp_alike hd ho _ _) fun r r' hr => ?_
    exact .bind (.lift hr.exp.trimRight?) fun e e' he => .pure (hdefined true e e' he)
  | ifndef =>
    refine .bind (parseExp_alike hd ho _ _) fun r r' hr => ?_
    exact .bind (.lift hr.exp.trimRight?) fun e e' he => .pure (hdefined false e e' he)

end

theorem trimName_alike (he : e.Twin e') :
    SameEnd (Expansion.IndexOnly False) Expansion.Twin (trimName e) (trimName e') :=
  .bind he.trimLeft? fun _ _ he => he.trimRight?

theorem twin_readAssignment (hd : d.Twin d') (ho : Line.Level d d' o o') (he : e.Twin e')
    (ht : Option.Rel Expansion.Twin targets targets') (mark : AssignMark) (origin : Origin) :
    Twin (readAssignment d e mark o targets origin)
      (readAssignment d' e' mark o' targets' origin) := by
  unfold readAssignment
  rw [ho.flatten hd.text]
  exact twin_assign he ht _ _ _ _ _

theorem readInlineCommand_alike (hd : d.Twin d') (ho : Line.Level d d' o o') :
    ReadAlike Twin (readInlineCommand d o) (readInlineCommand d' o') :=
  .bind (parseExp_alike hd (ho.skipBlanks hd.text) _ _) fun _ _ hr => .pure (twin_command hr.exp)

/-! ## Lines without a directive -/

/-- The relation is kept when twins are added, and when it is set whether a rule is current. -/
structure Reader.Kept (S : Reader → Reader → Prop) : Prop where
  add : ∀ {st st' s s'}, S st st' → Twin s s' → S (st.add s) (st'.add s')
  rule : ∀ {st st'} b, S st st' → S (st.rule b) (st'.rule b)

variable {S : Reader → Reader → Prop} {st st' : Reader}

theorem readRule_alike (hS : Reader.Kept S) (hst : S st st') (hd : d.Twin d')
    (ho : Line.Level d d' o o')
    (ht : t.Twin t') (c : Bool) : ReadAlike S (readRule st d t c o) (readRule st' d' t' c o') := by
  refine .bind (parseExp_alike hd ho _ _) fun r r' hr => ?_
  cases hr with
  | used he => exact .pure (hS.rule _ (hS.add hst (twin_rule ht he c)))
  | @stopped e e' token o o' he ho =>
    dsimp only
    split
    · refine .bind (.lift (trimName_alike he)) fun n n' hn => ?_
      exact .pure (hS.add hst (twin_readAssignment hd ho hn (.some ht) _ _))
    split
    · refine .bind (readInlineCommand_alike hd ho) fun s s' hs => .pure (hS.rule _ ?_)
      exact hS.add (hS.add hst (twin_rule ht he c)) hs
    split
    · exact .throw nofun
    · refine .bind (parseExp_alike hd ho _ _) fun r r' hr => ?_
      cases hr with
      | used hp => exact .pure (hS.rule _ (hS.add hst (twin_staticRule ht he hp c)))
      | stopped hp ho =>
        refine .bind (readInlineCommand_alike hd ho) fun s s' hs => .pure (hS.rule _ ?_)
        exact hS.add (hS.add hst (twin_staticRule ht he hp c)) hs

theorem readPlain_alike (hS : Reader.Kept S) (hst : S st st') (hd : d.Twin d')
    (ho : Line.Level d d' o o') :
    ReadAlike S (readPlain st d o) (readPlain st' d' o') := by
  refine .bind (parseExp_alike hd ho _ _) fun r r' hr => ?_
  cases hr with
  | used he =>
    refine .bind (.lift he.trimRight?) fun e e' he => .bind (.lift he.trimLeft?)
      fun e e' he => .pure ?_
    rw [he.isEmpty]
    split
    · exact hst
    · exact hS.add hst ⟨.cons he .nil, by simp only [unplaced, he.same]⟩
  | @stopped e e' token o o' he ho =>
    dsimp only
    split
    · refine .bind (.lift (trimName_alike he)) fun n n' hn => .pure (hS.rule _ ?_)
      exact hS.add hst (twin_readAssignment hd ho hn .none _ _)
    · exact readRule_alike hS (hS.rule _ hst) hd ho he _

/-! ## Directives -/

/-- Two open blocks with twin groups, the current one included. -/
structure OpenBlock.Twin (b b' : OpenBlock) : Prop where
  done : List.Forall₂ Group.Twin b.done b'.done
  condition : b.condition.Twin b'.condition
  body : List.Forall₂ Statement.Twin b.body b'.body

/-- The second reader has read some statements before, and since then what the first one has read;
whether a rule is current in the one and in the other are related. -/
structure Reader.Over (base : List Statement) (K : Bool → Bool → Prop) (st st' : Reader) :
    Prop where
  outer : ∃ ss, st'.outer = ss ++ base ∧ List.Forall₂ Twin st.outer ss
  blocks : List.Forall₂ OpenBlock.Twin st.blocks st'.blocks
  inRule : K st.inRule st'.inRule

variable {base : List Statement} {K : Bool → Bool → Prop} {b b' : OpenBlock} {c c' : Condition}
  {s s' : Statement}

theorem OpenBlock.Twin.current (h : b.Twin b') :
    Group.Twin (.mk b.condition b.body.reverse) (.mk b'.condition b'.body.reverse) :=
  ⟨h.condition, rel_reverse h.body⟩

theorem OpenBlock.Twin.groups (h : b.Twin b') : List.Forall₂ Group.Twin b.groups b'.groups :=
  rel_reverse (.cons h.current h.done)

theorem OpenBlock.Twin.next (h : b.Twin b') (hc : c.Twin c') :
    SameEnd (Expansion.IndexOnly False) OpenBlock.Twin (b.next c) (b'.next c') := by
  have hcurrent := h.current
  have hcondition := h.condition
  unfold OpenBlock.next
  generalize b.condition = k at hcurrent hcondition
  generalize b'.condition = k' at hcurrent hcondition
  obtain ⟨-, hsame⟩ := hcondition
  cases k <;> cases k' <;> simp only [Condition.unplaced, reduceCtorEq] at hsame
  · exact .ok ⟨.cons hcurrent h.done, hc, .nil⟩
  · exact .ok ⟨.cons hcurrent h.done, hc, .nil⟩
  · exact .error nofun

namespace Reader

section

variable (h : st.Over base K st')
include h

theorem Over.add (hs : s.Twin s') : (st.add s).Over base K (st'.add s') := by
  obtain ⟨outer, blocks, inRule⟩ := st
  obtain ⟨outer', blocks', inRule'⟩ := st'
  obtain ⟨⟨ss, houter, hss⟩, hblocks, hrule⟩ := h
  cases hblocks with
  | nil => exact ⟨⟨s' :: ss, congrArg (s' :: ·) houter, .cons hs hss⟩, .nil, hrule⟩
  | cons hb hrest =>
    exact ⟨⟨ss, houter, hss⟩, .cons ⟨hb.done, hb.condition, .cons hs hb.body⟩ hrest, hrule⟩

theorem Over.setBlocks {bs bs' : List OpenBlock} (hbs : List.Forall₂ OpenBlock.Twin bs bs') :
    Reader.Over base K { st with blocks := bs } { st' with blocks := bs' } :=
  ⟨h.outer, hbs, h.inRule⟩

theorem Over.mono {K' : Bool → Bool → Prop} (hK : K' st.inRule st'.inRule) : st.Over base K' st' :=
  ⟨h.outer, h.blocks, hK⟩

theorem Over.rule {K' : Bool → Bool → Prop} [Std.Refl K'] (b : Bool) :
    (st.rule b).Over base K' (st'.rule b) :=
  ⟨h.outer, h.blocks, Std.Refl.refl b⟩

end

theorem kept_over [Std.Refl K] : Kept (Over base K) := ⟨Over.add, fun b h => h.rule b⟩

end Reader

theorem readDirective_alike [Std.Refl K] (hst : st.Over base K st') (hd : d.Twin d')
    (ho : Line.Level d d' o o')
    (w : Directive) :
    ReadAlike (Reader.Over base K) (readDirective st d w o) (readDirective st' d' w o') := by
  have hblocks := hst.blocks
  unfold readDirective
  cases w with
  | endif =>
    refine .bind (ensureEnd_alike hd ho _) fun _ _ _ => ?_
    generalize st.blocks = bs at hblocks
    generalize st'.blocks = bs' at hblocks
    cases hblocks with
    | nil => exact .throw nofun
    | cons hb hrest => exact .pure ((hst.setBlocks hrest).add (twin_block hb.groups _ _ _ _))
  | otherwise =>
    generalize st.blocks = bs at hblocks
    generalize st'.blocks = bs' at hblocks
    cases hblocks with
    | nil => exact .throw nofun
    | @cons b b' bs bs' hb hrest =>
      have hnext (c c' : Condition) (hc : c.Twin c') : ReadAlike (Reader.Over base K)
          (liftM (b.next c) >>= fun b => (pure { st with blocks := b :: bs } : ParseM Reader))
          (liftM (b'.next c') >>= fun b => pure { st' with blocks := b :: bs' }) :=
        .bind (.lift (hb.next hc)) fun _ _ hb => .pure (hst.setBlocks (.cons hb hrest))
      dsimp only
      rw [ho.rest hd.text]
      split
      · exact .bind (ensureEnd_alike hd ho _) fun _ _ _ => hnext _ _ ⟨.nil, rfl⟩
      · exact .bind (readCondition_alike hd ((ho.add _).skipBlanks hd.text) _ _ _) hnext
  | condition w =>
    refine .bind (readCondition_alike hd ho w _ _) fun c c' hc => .pure (hst.setBlocks ?_)
    exact .cons ⟨.nil, hc, .nil⟩ hblocks
  | define => exact .pure hst
  | endef => exact .throw nofun
  | override =>
    refine .bind (parseExp_alike hd ho _ _) fun r r' hr => .bind (.lift (trimName_alike hr.exp))
      fun n n' hn => ?_
    cases hr with
    | used => exact .throw nofun
    | stopped _ ho => exact .pure ((hst.add (twin_readAssignment hd ho hn .none _ _)).rule false)
  | includes required deps =>
    refine .bind (parseExp_alike hd ho _ _) fun r r' hr => .pure ((hst.add ?_).rule false)
    exact ⟨.cons hr.exp .nil, by simp only [unplaced, hr.exp.same]⟩
  | vpath =>
    refine .bind (parseExp_alike hd ho _ _) fun r r' hr => .pure ((hst.add ?_).rule false)
    exact ⟨.cons hr.exp .nil, by simp only [unplaced, hr.exp.same]⟩
  | exports =>
    refine .bind (parseExp_alike hd ho _ _) fun r r' hr => .bind (.lift (trimName_alike hr.exp))
      fun n n' hn => ?_
    have hexports (b : Bool) : Twin (.exports n b) (.exports n' b) :=
      ⟨.cons hn .nil, by simp only [unplaced, hn.same]⟩
    cases hr with
    | used => exact .pure ((hst.add (hexports false)).rule false)
    | stopped _ ho =>
      exact .pure
        (((hst.add (hexports true)).add (twin_readAssignment hd ho hn .none _ _)).rule false)
  | unexports =>
    refine .bind (parseExp_alike hd ho _ _) fun r r' hr => .pure (hst.add ?_)
    exact ⟨.cons hr.exp .nil, by simp only [unplaced, hr.exp.same]⟩

/-! ## Lines that begin a rule -/

/-- Is the statement a rule, by static patterns or not? -/
def takesRecipe : Statement → Bool
  | .rule .. => true
  | .staticRule .. => true
  | _ => false

/-- No directive begins the line, and a rule is read from it alone. -/
def startsRule (d : Line) : Bool :=
  (leadingWord? directives (d.rest (d.skipBlanks d.start))).isNone &&
    match (readPlain ⟨[], [], false⟩ d (d.skipBlanks d.start)).outcome.1 with
    | .ok st => st.outer.any takesRecipe
    | .error _ => false

section Rule

variable {u : Reader} {ns ns' : List Notice}

theorem inRule_of_readRule {c : Bool} (h : Gives (readRule ⟨[], [], false⟩ d t c o) ns u ns')
    (hrule : u.outer.any takesRecipe = true) : u.inRule = true := by
  obtain ⟨r, _, -, h⟩ := h.of_bind
  split at h
  · cases h
    rfl
  split at h
  · -- an assignment for some targets is no rule
    obtain ⟨name, -, rfl⟩ := h.of_pure
    cases hrule
  split at h
  · obtain ⟨s, -, rfl⟩ := h.of_pure
    rfl
  split at h
  · cases h
  · obtain ⟨p, _, -, h⟩ := h.of_bind
    split at h
    · cases h
      rfl
    · obtain ⟨s, -, rfl⟩ := h.of_pure
      rfl

/-- After a line from which a rule is read, a rule is current. -/
theorem inRule_of_readPlain (h : Gives (readPlain ⟨[], [], false⟩ d o) ns u ns')
    (hrule : u.outer.any takesRecipe = true) : u.inRule = true := by
  obtain ⟨r, _, -, h⟩ := h.of_bind
  split at h
  · obtain ⟨e, _, -, h⟩ := h.of_bind
    obtain ⟨e', -, rfl⟩ := h.of_pure
    split at hrule <;> cases hrule
  split at h
  · obtain ⟨name, -, rfl⟩ := h.of_pure
    cases hrule
  · exact inRule_of_readRule h hrule

/-- The rule is current whatever was read before. -/
theorem inRule_of_startsRule (hd : ¬ ['$', '\n'] <:+ d.text) (hstarts : startsRule d = true)
    (hst : st.inRule = false)
    (h : Gives (readPlain st d (d.skipBlanks d.start)) ns u ns') : u.inRule = true := by
  have hkept : Reader.Kept fun st st' => st.inRule = st'.inRule :=
    ⟨fun h _ => by rwa [Reader.add_inRule, Reader.add_inRule], fun _ _ => rfl⟩
  have hfresh : st.inRule = Reader.inRule ⟨[], [], false⟩ := hst
  have halike := readPlain_alike hkept hfresh ⟨rfl, hd⟩ ((Line.level_start d d).skipBlanks rfl)
  obtain ⟨u', ns'', hu', hsame⟩ := halike.gives h []
  have hrule := (Bool.and_eq_true_iff.1 hstarts).2
  unfold ParseM.outcome at hrule
  rw [show (readPlain ⟨[], [], false⟩ d (d.skipBlanks d.start)).run [] = _ from hu'] at hrule
  rw [hsame]
  exact inRule_of_readPlain hu' hrule

end Rule

/-! ## Lines one after the other -/

variable {ls ls' : List Line}

/-- The same text, and after it lines with the same texts. -/
def TwinBody {α : Type} (p p' : α × List Line) : Prop :=
  p.1 = p'.1 ∧ List.Forall₂ Line.Twin p.2 p'.2

theorem takeBody_twin (hls : List.Forall₂ Line.Twin ls ls') (depth : Nat) :
    Option.Rel TwinBody (takeBody depth ls) (takeBody depth ls') := by
  induction hls generalizing depth with
  | nil => exact .none
  | @cons d d' ls ls' hd hls ih =>
    have hmore (depth : Nat) : Option.Rel TwinBody ((takeBody depth ls).map fun p =>
      (d'.text :: p.1, p.2))
        ((takeBody depth ls').map fun p => (d'.text :: p.1, p.2)) := by
      have h := ih depth
      generalize takeBody depth ls = r at h ⊢
      generalize takeBody depth ls' = r' at h ⊢
      cases h with
      | none => exact .none
      | some h => exact .some ⟨congrArg (d'.text :: ·) h.1, h.2⟩
    rw [takeBody, takeBody]
    rw [hd.text]
    split
    · exact hmore _
    · split
      · exact .some ⟨rfl, hls⟩
      · exact hmore _
    · exact hmore _

theorem readBody_twin (hls : List.Forall₂ Line.Twin ls ls') (l l' : Location) :
    SameEnd (Expansion.IndexOnly False) (fun p p' => TwinBody p p' ∧ p.2.length ≤ ls.length)
      (readBody l ls)
      (readBody l' ls') := by
  have h := takeBody_twin hls 0
  unfold readBody
  generalize hr : takeBody 0 ls = r at h ⊢
  generalize takeBody 0 ls' = r' at h ⊢
  cases h with
  | none => exact .error nofun
  | @some p p' h =>
    obtain ⟨body, rest⟩ := p
    exact .ok ⟨⟨congrArg bodyValue h.1, h.2⟩, length_le_of_takeBody hr⟩

/-- **One line leads both readers on alike**, if they agree on whether it belongs to a rule. After a
line that begins a rule, a rule is current; after a definition, none is. -/
theorem readLine_alike [Std.Refl K] {R : Reader → Reader → Prop} (hd : d.Twin d')
    (hls : List.Forall₂ Line.Twin ls ls') (hst : st.Over base K st')
    (htab : d.text.head? = some '\t' → st.inRule = st'.inRule)
    (hon : ∀ u u', u.Over base K u' → (startsRule d = true → st.inRule = false → u.inRule = true) →
      ReadAlike R (readLines u ls) (readLines u' ls'))
    (hdefine : ∀ u u' ms ms', u.Over base Eq u' → List.Forall₂ Line.Twin ms ms' →
      ms.length ≤ ls.length →
      ReadAlike R (readLines u ms) (readLines u' ms')) :
    ReadAlike R (readLines st (d :: ls)) (readLines st' (d' :: ls')) := by
  have hstart := (Line.level_start d d').skipBlanks hd.text
  have hrest := hstart.rest hd.text
  by_cases hcommand : st.inRule = true ∧ d.text.head? = some '\t'
  · -- a recipe line of the rule that is current in both
    obtain ⟨hrule, htext⟩ := hcommand
    rw [readLines_command hrule htext, readLines_command (htab htext ▸ hrule) (hd.text ▸ htext)]
    refine .bind (parseExp_alike hd ((Line.level_start d d').add 1) _ _) fun r r' hr => ?_
    refine hon _ _ (hst.add (twin_command hr.exp)) fun _ hno => ?_
    simp [hrule] at hno
  have hplain : st.inRule = true → d.text.head? ≠ some '\t' :=
    fun hrule htext => hcommand ⟨hrule, htext⟩
  have hplain' : st'.inRule = true → d'.text.head? ≠ some '\t' := by
    intro hrule htext
    rw [← hd.text] at htext
    exact hplain (htab htext ▸ hrule) htext
  rcases hword : leadingWord? directives (d.rest (d.skipBlanks d.start)) with _ | ⟨w, k, n⟩
  · rw [readLines_plain hplain hword, readLines_plain hplain' (hrest ▸ hword)]
    refine .bind ((readPlain_alike Reader.kept_over hst hd hstart).and_left fun ns u ns' hu => ?_)
      fun u u' hu => hon u u' hu.1 hu.2
    exact fun hstarts hrule => inRule_of_startsRule hd.ends hstarts hrule hu
  by_cases hw : w = .define
  · subst hw
    rw [readLines_define hplain hword, readLines_define hplain' (hrest ▸ hword)]
    refine .bind (parseExp_alike hd (hstart.add n) _ _) fun r r' hr => ?_
    refine .bind (.lift hr.exp.trimRight?) fun e e' he => .bind (.lift (readBody_twin hls _ _))
      fun p p' hp => ?_
    refine hdefine _ _ _ _ ?_ hp.1.2 hp.2
    rw [hp.1.1]
    exact (hst.add (twin_assign he .none _ _ _ _ _)).rule false
  · rw [readLines_directive hw hplain hword, readLines_directive hw hplain' (hrest ▸ hword)]
    refine .bind (readDirective_alike hst hd (hstart.add n) w) fun u u' hu => hon u u' hu
      fun hstarts => ?_
    simp [startsRule, hword] at hstarts

/-- **Lines with the same texts lead both readers on alike**, if they agree on whether a rule is
current. -/
theorem readLines_alike (hls : List.Forall₂ Line.Twin ls ls') (hst : st.Over base Eq st') :
    ReadAlike (Reader.Over base Eq) (readLines st ls) (readLines st' ls') := by
  -- on the number of lines, since a definition takes up more than one
  induction hn : ls.length using Nat.strong_induction_on generalizing ls ls' st st' with
  | h n ih =>
    subst hn
    cases hls with
    | nil =>
      rw [readLines, readLines]
      exact .pure hst
    | @cons d d' ls ls' hd hls =>
      refine readLine_alike hd hls hst (fun _ => hst.inRule) (fun u u' hu _ => ?_)
        fun u u' ms ms' hu hms hlen => ?_
      · exact ih _ (Nat.lt_succ_self _) hls hu rfl
      · exact ih _ (Nat.lt_succ_of_le hlen) hms hu rfl

/-! ## Whole makefiles -/

theorem twin_place {ps : List Text} (hps : ∀ p ∈ ps, ¬ ['$', '\n'] <:+ p) (path : Text)
    (a b a' b' : Nat) :
    List.Forall₂ Line.Twin (Line.place path a b ps) (Line.place path a' b' ps) := by
  induction ps generalizing a b a' b' with
  | nil => exact .nil
  | cons p ps ih =>
    obtain ⟨hp, hps⟩ := forall_mem_cons.1 hps
    exact .cons ⟨rfl, hp⟩ (ih hps _ _ _ _)

/-- The statements that were read, if no block is open. -/
def Reader.ended (st : Reader) : ParseM (List Statement) :=
  match st.blocks with
  | [] => return st.outer.reverse
  | b :: _ => throw (.malformed .conditionOpen (some b.loc))

theorem parse_eq (s path : Text) :
    parse s path = readLines ⟨[], [], false⟩ (Line.lines s path) >>= Reader.ended := rfl

theorem ended_alike (hst : st.Over base K st') :
    ReadAlike (fun ss ss' => ∃ ts, ss' = base.reverse ++ ts ∧ List.Forall₂ Twin ss ts) st.ended
      st'.ended := by
  obtain ⟨ss, houter, hss⟩ := hst.outer
  have hblocks := hst.blocks
  unfold Reader.ended
  generalize st.blocks = bs at hblocks
  generalize st'.blocks = bs' at hblocks
  cases hblocks with
  | nil => exact .pure ⟨ss.reverse, by rw [houter, reverse_append], rel_reverse hss⟩
  | cons => exact .throw nofun

/-- All expansions of the statement, and of the statements in it, are in normal form. -/
def Normal (s : Statement) : Prop := ∀ e ∈ s.expansions, e.Normal

theorem Twin.normal (h : s.Twin s') : s.Normal := forall_left h.parts fun _ _ he => he.left

/-- **What is read is in normal form.** Every expansion that is read from a line, and every one
inside it, is a literal or a sequence with a reference, no empty text and no two texts side by side.
From a normal form, blanks can be cut off at both ends, and it stays one. So no makefile is read
beyond an end, and all expansions of its statements are in normal form; only a line by itself that
ends in a dollar sign and a newline is read beyond its end. -/
theorem parse_normal :
    (∀ d offset stops m ns r ns', Gives (Expansion.parse d offset stops m) ns r ns' →
      r.exp.Normal) ∧
    (∀ d offset stops m ns ns', Fails (Expansion.parse d offset stops m) ns (.breach .index) ns' →
      ∃ u, d.rest offset = u ++ ['$', '\n']) ∧
    (∀ e : Expansion, e.Normal → ∃ l r, e.trimLeft? = .ok l ∧ l.Normal ∧
      e.trimRight? = .ok r ∧ r.Normal) ∧
    ∀ s path ns ns', ¬ Fails (parse s path) ns (.breach .index) ns' ∧
      ∀ ss, Gives (parse s path) ns ss ns' → ∀ s ∈ ss, s.Normal := by
  refine ⟨fun d offset stops m ns r ns' h => ?_,
    fun d offset stops m ns ns' h => ?_, fun e he => ?_, ?_⟩
  · obtain ⟨r', ns'', -, hr⟩ := (Expansion.parse_alike_self d offset stops m).gives h []
    exact hr.exp.left
  · exact (Expansion.parse_alike_self d offset stops m).fails h [] rfl
  · exact ⟨_, _, he.trimLeft?, he.trimLeft, he.trimRight?, he.trimRight⟩
  · intro s path ns ns'
    have hlines : List.Forall₂ Line.Twin (Line.lines s path) (Line.lines s path) :=
      twin_place (fun p hp => Line.not_dollar_of_mem_pieces hp) path _ _ _ _
    have hstart : Reader.Over [] Eq ⟨[], [], false⟩ ⟨[], [], false⟩ := ⟨⟨[], rfl, .nil⟩, .nil, rfl⟩
    have halike := EndAlike.bind (readLines_alike hlines hstart) fun _ _ => ended_alike
    rw [← parse_eq] at halike
    refine ⟨fun h => halike.fails h ns rfl, fun ss h t ht => ?_⟩
    obtain ⟨ss', ns₁, -, ts, -, hss⟩ := halike.gives h ns
    exact forall_left hss (fun _ _ h => h.normal) t ht

/-- A call whose condition ends in a blank, with a colon but no equals sign in the reference after
it, and a text in two pieces. -/
theorem parse_normal_call :
    ∃ r ns, Gives (Expansion.parse (Line.ofText "$(if $(b) ,$(d:e))$$ " "f") 0 [] .data) [] r ns ∧
      (r.exp.references.length == 1) = true ∧ r.exp.Normal ∧
      ∃ left right, r.exp.trimLeft? = .ok left ∧ left.Normal ∧ r.exp.trimRight? = .ok right ∧
      right.Normal := by
  have hread : ∃ r ns, Gives (Expansion.parse (Line.ofText "$(if $(b) ,$(d:e))$$ " "f") 0 [] .data)
    [] r ns ∧
      (r.exp.references.length == 1) = true :=
    exists_gives (by decide +kernel)
  obtain ⟨r, ns, hread, hlength⟩ := hread
  have hnormal : r.exp.Normal := parse_normal.1 _ _ _ _ _ _ _ hread
  exact ⟨r, ns, hread, hlength, hnormal, parse_normal.2.2.1 _ hnormal⟩

end Statement

end Rebuild
