import Mathlib.Data.Bool.Basic
import Rebuild.Proofs.Line.Partition
import Rebuild.Proofs.Statement.Twin
/-!
# Texts put together

Two texts with a newline between them are read as the one and then the other, if nothing leaks
across the seam. A continuation would, so the first text must not end in an odd number of
backslashes; and the rule that is current at the end of the first text would take up the lines of
the second that begin with a tab, up to the first rule of its own (`readLines_alike_upToRule`).
Nothing else does: the second text is read from the state after the first (`readLines_append`) as it
is from the start.
-/

namespace Rebuild

open Line

namespace Statement

variable {st st' st₁ st₂ : Reader} {ls ls' : List Line} {ns ns₁ ns₂ : List Notice}
  {base : List Statement}
  {rest : List Line}

/-! ## Reading on -/

theorem takeBody_append {depth : Nat} {body : List Text} (h : takeBody depth ls = some (body, rest))
    (ms : List Line) : takeBody depth (ls ++ ms) = some (body, rest ++ ms) := by
  induction ls generalizing depth body with
  | nil => cases h
  | cons d ls ih =>
    have hmore {depth : Nat} (h : (takeBody depth ls).map (fun p => (d.text :: p.1, p.2)) =
      some (body, rest)) :
        (takeBody depth (ls ++ ms)).map (fun p => (d.text :: p.1, p.2)) =
        some (body, rest ++ ms) := by
      obtain ⟨p, hp, heq⟩ := Option.map_eq_some_iff.1 h
      obtain ⟨body', rest'⟩ := p
      cases heq
      rw [ih hp]
      rfl
    rw [takeBody] at h
    rw [List.cons_append, takeBody]
    split at h
    · exact hmore h
    · split at h
      · cases h
        rename_i hdepth
        rw [if_pos hdepth]
      · rename_i hdepth
        rw [if_neg hdepth]
        exact hmore h
    · exact hmore h

theorem readBody_append {l : Location} {value : Text} (h : readBody l ls = .ok (value, rest))
    (ms : List Line) : readBody l (ls ++ ms) = .ok (value, rest ++ ms) := by
  unfold readBody at h ⊢
  split at h
  · cases h
  · rename_i hbody
    cases h
    rw [takeBody_append hbody ms]

/-- **Reading goes on from the state after the first lines**, whatever comes of it. -/
theorem run_readLines_append (h : Gives (readLines st ls) ns st₁ ns₁) (ms : List Line) :
    (readLines st (ls ++ ms)).run ns = (readLines st₁ ms).run ns₁ := by
  induction hn : ls.length using Nat.strong_induction_on generalizing ls st ns with
  | h n ih =>
    subst hn
    cases ls with
    | nil =>
      rw [readLines] at h
      cases h
      rfl
    | cons d ls =>
      rcases readLines_cons st d with ⟨x, hx⟩ | ⟨x, hx⟩
      · rw [hx] at h
        rw [List.cons_append, hx]
        obtain ⟨u, ns', hu, h⟩ := h.of_bind
        rw [hu.run_bind, ih _ (Nat.lt_succ_self _) h rfl]
      · rw [hx] at h
        rw [List.cons_append, hx]
        obtain ⟨name, ns', hname, h⟩ := h.of_bind
        obtain ⟨⟨value, rest⟩, ns'', hlift, h⟩ := h.of_bind
        obtain ⟨hbody, rfl⟩ := gives_liftM.1 hlift
        have hbody' : Gives (liftM (readBody d.loc (ls ++ ms)) : ParseM _) ns'
            (value, rest ++ ms) ns' :=
          gives_liftM.2 ⟨readBody_append hbody ms, rfl⟩
        -- the body ends in the first lines, so the lines after it are fewer
        rw [hname.run_bind, hbody'.run_bind,
          ih _ (Nat.lt_succ_of_le (length_le_of_readBody hbody)) h rfl]

theorem readLines_append {ms : List Line} (h1 : Gives (readLines st ls) ns st₁ ns₁)
    (h2 : Gives (readLines st₁ ms) ns₁ st₂ ns₂) : Gives (readLines st (ls ++ ms)) ns st₂ ns₂ :=
  (run_readLines_append h1 ms).trans h2

/-! ## Up to the first rule -/

/-- The lines up to and with the first one that begins a rule. -/
def upToRule : List Line → List Line
  | [] => []
  | d :: ls => if startsRule d then [d] else d :: upToRule ls

/-- **The second reader may have a rule current that the first one has not**, as long as no line
begins with a tab: the first line that begins a rule, and every one that ends all rules, sets both
right. -/
theorem readLines_alike_upToRule (hls : List.Forall₂ Line.Twin ls ls')
    (hst : st.Over base (· ≤ ·) st')
    (htab : ∀ d ∈ upToRule ls, d.text.head? ≠ some '\t') :
    ReadAlike (Reader.Over base (· ≤ ·)) (readLines st ls) (readLines st' ls') := by
  have hsync {u u' : Reader} {ms ms' : List Line} (hms : List.Forall₂ Line.Twin ms ms')
    (hu : u.Over base Eq u') :
      ReadAlike (Reader.Over base (· ≤ ·)) (readLines u ms) (readLines u' ms') :=
    (readLines_alike hms hu).mono (fun _ h => h) fun _ _ h => h.mono h.inRule.le
  induction hls generalizing st st' with
  | nil =>
    rw [readLines, readLines]
    exact .pure hst
  | @cons d d' ls ls' hd hls ih =>
    by_cases hsame : st.inRule = st'.inRule
    · exact hsync (.cons hd hls) (hst.mono hsame)
    -- a rule is current in the second reader only
    have hrule : st.inRule = false :=
      Bool.eq_false_iff.2 fun htrue => hsame (htrue.trans (hst.inRule htrue).symm)
    have hhead : d.text.head? ≠ some '\t' := htab d (by unfold upToRule; split <;> simp)
    refine readLine_alike hd hls hst (fun htext => absurd htext hhead) (fun u u' hu hstarts => ?_)
      fun u u' ms ms' hu hms _ => hsync hms hu
    by_cases hfirst : startsRule d = true
    · have htrue : u.inRule = true := hstarts hfirst hrule
      exact hsync hls (hu.mono (htrue.trans (hu.inRule htrue).symm))
    · refine ih hu fun e he => htab e ?_
      unfold upToRule
      rw [if_neg hfirst]
      exact List.mem_cons_of_mem _ he

/-! ## The seam -/

variable {s t₁ t₂ path : Text} {ss ss₁ ss₂ : List Statement}

theorem gives_parse : Gives (parse s path) ns ss ns₁ ↔
    ∃ st, Gives (readLines ⟨[], [], false⟩ (lines s path)) ns st ns₁ ∧ st.blocks = [] ∧
      st.outer.reverse = ss := by
  rw [parse_eq, gives_bind]
  constructor
  · rintro ⟨st, ns', hread, hended⟩
    unfold Reader.ended at hended
    split at hended
    · rename_i hblocks
      obtain ⟨hss, rfl⟩ := gives_pure.1 hended
      exact ⟨st, hread, hblocks, hss⟩
    · cases hended
  · rintro ⟨st, hread, hblocks, hss⟩
    refine ⟨st, ns₁, hread, ?_⟩
    unfold Reader.ended
    rw [hblocks]
    exact gives_pure.2 ⟨hss, rfl⟩

/-- The lines of two texts put together are those of the first, and those of the second further
on. -/
theorem lines_newline (hslash : slashesAtEnd t₁ % 2 = 0) (t₂ path : Text) : ∃ start line,
    lines (t₁ ++ '\n' :: t₂) path = lines t₁ path ++ place path start line (pieces false t₂) := by
  unfold lines
  rw [pieces_newline (oddAfter_eq_false_iff.2 hslash), place_append]
  exact ⟨_, _, rfl⟩

/-- **Two texts put together are read as the one and then the other**, but for the locations. The
first must not end in an odd number of backslashes, and no line of the second may begin with a tab
up to and with its first rule. -/
theorem parse_seam (h₁ : (parse t₁ path).outcome.1 = .ok ss₁)
    (h₂ : (parse t₂ path).outcome.1 = .ok ss₂)
    (hslash : Line.slashesAtEnd t₁ % 2 = 0)
    (htab : ∀ d ∈ upToRule (Line.lines t₂ path), d.text.head? ≠ some '\t') :
    ∃ ss, (parse (t₁ ++ '\n' :: t₂) path).outcome.1 = .ok ss ∧ unplacedAll ss = unplacedAll
      (ss₁ ++ ss₂) := by
  have hgives {s : Text} {ss : List Statement} (h : (parse s path).outcome.1 = .ok ss) :
      Gives (parse s path) [] ss (parse s path).outcome.2 := Prod.ext h rfl
  obtain ⟨st₁, hread₁, hblocks, rfl⟩ := gives_parse.1 (hgives h₁)
  obtain ⟨start, line, hlines⟩ := lines_newline hslash t₂ path
  have htwin : List.Forall₂ Line.Twin (lines t₂ path) (place path start line (pieces false t₂)) :=
    twin_place (fun p hp => not_dollar_of_mem_pieces hp) path _ _ _ _
  have hover : Reader.Over st₁.outer (· ≤ ·) ⟨[], [], false⟩ st₁ :=
    ⟨⟨[], rfl, .nil⟩, by rw [hblocks]; exact .nil, Bool.false_le _⟩
  have halike := EndAlike.bind (readLines_alike_upToRule htwin hover htab) fun _ _ => ended_alike
  rw [← parse_eq] at halike
  obtain ⟨ss, ns, hss, ts, rfl, hts⟩ := halike.gives (hgives h₂) (parse t₁ path).outcome.2
  obtain ⟨st₂, ns', hread₂, hended⟩ := hss.of_bind
  have hwhole : Gives (parse (t₁ ++ '\n' :: t₂) path) [] (st₁.outer.reverse ++ ts) ns := by
    rw [parse_eq, hlines]
    exact gives_bind.2 ⟨st₂, ns', readLines_append hread₁ hread₂, hended⟩
  refine ⟨_, congrArg Prod.fst hwhole, ?_⟩
  rw [unplacedAll_append, unplacedAll_append, (twinAll hts).2]

/-- A definition and a rule with a recipe. -/
def seamBefore : Text := "define a\n\tb:\nendef\nx: y\n\tz"

/-- An assignment, a rule in a block, with a recipe of its own, and another assignment. -/
def seamAfter : Text := "a = b\nifdef c\nd: e;f\n\t$(g)\nendif\nh = i"

theorem parse_seam_block : ∃ ss₁ ss₂ ss, (parse seamBefore "f").outcome.1 = .ok ss₁ ∧
    (parse seamAfter "f").outcome.1 = .ok ss₂ ∧ Line.slashesAtEnd seamBefore % 2 = 0 ∧
      (∀ d ∈ upToRule (Line.lines seamAfter "f"), d.text.head? ≠ some '\t') ∧
      (parse (seamBefore ++ '\n' :: seamAfter) "f").outcome.1 = .ok ss ∧
        unplacedAll ss = unplacedAll (ss₁ ++ ss₂) := by
  have hbefore : ∃ ss ns, Gives (parse seamBefore "f") [] ss ns ∧ (ss.length == 3) = true :=
    exists_gives (by decide +kernel)
  have hafter : ∃ ss ns, Gives (parse seamAfter "f") [] ss ns ∧ (ss.length == 3) = true :=
    exists_gives (by decide +kernel)
  obtain ⟨ss₁, ns₁, h₁, -⟩ := hbefore
  obtain ⟨ss₂, ns₂, h₂, -⟩ := hafter
  have hok₁ := congrArg Prod.fst h₁
  have hok₂ := congrArg Prod.fst h₂
  have hslash : slashesAtEnd seamBefore % 2 = 0 := by decide
  have htab : ∀ d ∈ upToRule (lines seamAfter "f"), d.text.head? ≠ some '\t' := by decide +kernel
  obtain ⟨ss, hss, hsame⟩ := parse_seam hok₁ hok₂ hslash htab
  exact ⟨ss₁, ss₂, ss, hok₁, hok₂, hslash, htab, hss, hsame⟩

/-- A first rule that begins with a tab is a rule by itself, and a recipe line of the rule before
it. No line before it begins with a tab. -/
theorem parse_tab_before_rule :
    (∀ d ∈ (Line.lines "\ta: b" "f").takeWhile (fun d => !startsRule d), d.text.head? ≠ some '\t') ∧
      Line.slashesAtEnd "x:" % 2 = 0 ∧ ∃ ss₁ ss₂ ss, (parse "x:" "f").outcome.1 = .ok ss₁ ∧
        (parse "\ta: b" "f").outcome.1 = .ok ss₂ ∧
        (parse ("x:" ++ '\n' :: "\ta: b") "f").outcome.1 = .ok ss ∧
          unplacedAll ss ≠ unplacedAll (ss₁ ++ ss₂) := by
  refine ⟨by decide +kernel, by decide, ?_⟩
  refine ⟨[.rule (.literal "x" (some ⟨"f", 1, 0⟩)) (.literal [] (some ⟨"f", 1, 0⟩)) false],
    [.rule (.literal "a" (some ⟨"f", 1, 0⟩)) (.literal " b" (some ⟨"f", 1, 0⟩)) false],
    [.rule (.literal "x" (some ⟨"f", 1, 0⟩)) (.literal [] (some ⟨"f", 1, 0⟩)) false,
      .command (.literal "a: b" (some ⟨"f", 2, 0⟩))], ?_, ?_, ?_, ?_⟩
  · with_unfolding_all rfl
  · with_unfolding_all rfl
  · with_unfolding_all rfl
  · simp [unplacedAll, unplaced]

end Statement

end Rebuild
