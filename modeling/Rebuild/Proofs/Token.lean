import Rebuild.Proofs.Line.Flatten
import Rebuild.Token
/-!
# Where tokens stand

A token is the start of the text that it was found in (`exists_append_of_match?`): a hash sign after
backslashes, one of the marks, or something that begins with a dollar sign. What calls a function is
its name with blanks after it (`callAfter?_eq_some_iff`). Between two texts that are apart no token
begins in the one and ends in the other.
-/

namespace Rebuild

open List Text

/-- Induction for readers that take one member of a list or several at once. -/
theorem pieces_induction {α : Type} {motive : List α → Prop} (nil : motive [])
    (cons : ∀ a l, (∀ u v, a :: l = u ++ v → u ≠ [] → motive v) → motive (a :: l)) (l : List α) :
    motive l := by
  induction hlen : l.length using Nat.strongRecOn generalizing l with
  | _ n ih =>
    cases l with
    | nil => exact nil
    | cons a l =>
      refine cons a l fun u v hl hu => ih v.length ?_ v rfl
      have := length_pos_iff.2 hu
      rw [← hlen, hl, length_append]
      omega

namespace Text

variable {s z : Text}

/-- A text that does not begin with a blank. -/
def Ink (s : Text) : Prop := ∀ c ∈ s.head?, isBlank c = false

theorem Ink.of_append (h : Ink (s ++ z)) : Ink s := by
  cases s with
  | nil => exact nofun
  | cons c s => exact h

/-- One blank or more. -/
def Blanks (s : Text) : Prop := s ≠ [] ∧ ∀ c ∈ s, isBlank c = true

end Text

/-- The function of a name. -/
def Builtin.named? (s : Text) : Option Builtin := all.find? fun f => f.name == s

theorem Builtin.name_injective {f g : Builtin} (h : f.name = g.name) : f = g := by
  have hnamed : ∀ f : Builtin, named? f.name = some f := by
    intro f
    cases f <;> rfl
  have heq := hnamed f
  rw [h, hnamed g] at heq
  exact (Option.some.inj heq).symm

namespace Token

variable {s w z z' p : Text} {t : Token} {a c x : Char} {b : Brace} {fn : Builtin} {blanks : Text}

theorem exists_append_of_not_mem {u v r : Text} (h : u ++ c :: z = v ++ r) (hv : c ∉ v) :
    ∃ rest, u = v ++ rest := by
  rcases append_eq_append_iff.1 h with ⟨w, hw, hz⟩ | ⟨w, hw, -⟩
  · cases w with
    | nil => exact ⟨[], by simpa using hw.symm⟩
    | cons x w =>
      cases hz
      exact absurd (hw ▸ by simp) hv
  · exact ⟨w, hw⟩

/-! ## Names of functions -/

theorem callAfter?_eq_none_iff : callAfter? s = none ↔
    ∀ (f : Builtin) (c : Char) (rest : Text), isBlank c = true → s ≠ f.name ++ c :: rest := by
  have hall (f : Builtin) : f ∈ Builtin.all := by cases f <;> decide
  unfold callAfter?
  rw [findSome?_eq_none_iff]
  constructor
  · rintro h f c rest hc rfl
    have hnone := h f (hall f)
    simp [takeWhile_cons_of_pos hc] at hnone
  · intro h f _
    split
    · rename_i hpre
      obtain ⟨rest, rfl⟩ := isPrefixOf_iff_prefix.1 hpre
      rw [drop_left]
      cases rest with
      | nil => rfl
      | cons c rest =>
        have hc : ¬ isBlank c = true := fun hc => h f c rest hc rfl
        rw [takeWhile_cons_of_neg hc]
        rfl
    · rfl

/-- Without blanks no function is called. -/
theorem callAfter?_eq_none (h : ∀ x ∈ s, isBlank x = false) : callAfter? s = none := by
  rw [callAfter?_eq_none_iff]
  rintro f c rest hc rfl
  cases hc.symm.trans (h c (by simp))

/-- A name is what stands before the first blank. -/
theorem takeWhile_name (f : Builtin) (h : Text.Blanks w) (s : Text) :
    (f.name ++ (w ++ s)).takeWhile (fun c => !isBlank c) = f.name := by
  have hname : ∀ c ∈ f.name, (!isBlank c) = true := by cases f <;> decide
  obtain ⟨x, w, rfl⟩ := exists_cons_of_ne_nil h.1
  refine takeWhile_append_of_head hname ?_
  rintro _ ⟨⟩
  rw [h.2 x mem_cons_self]
  rfl

/-- **What calls a function is its name and all the blanks after it**, of which there are some. -/
theorem callAfter?_eq_some_iff : callAfter? s = some (fn, blanks) ↔
    ∃ rest, s = fn.name ++ (blanks ++ rest) ∧ Text.Blanks blanks ∧ Text.Ink rest := by
  have hfound {fn : Builtin} {blanks : Text} (h : callAfter? s = some (fn, blanks)) :
      ∃ rest, s = fn.name ++ (blanks ++ rest) ∧ Text.Blanks blanks ∧ Text.Ink rest := by
    obtain ⟨g, -, hg⟩ := exists_of_findSome?_eq_some h
    dsimp only at hg
    split at hg
    · rename_i hp
      obtain ⟨w, rfl⟩ := isPrefixOf_iff_prefix.1 hp
      rw [drop_left] at hg
      split at hg
      · cases hg
      · rename_i hne
        cases hg
        refine ⟨w.dropWhile isBlank, by rw [takeWhile_append_dropWhile], ⟨mt List.isEmpty_iff.2 hne,
          fun c => mem_takeWhile_imp⟩, fun c hc => ?_⟩
        have hnot := head?_dropWhile_not isBlank w
        rwa [Option.mem_def.1 hc] at hnot
    · cases hg
  refine ⟨hfound, ?_⟩
  rintro ⟨rest, hs, hblanks, hink⟩
  cases h : callAfter? s with
  | none =>
    obtain ⟨x, xs, rfl⟩ := exists_cons_of_ne_nil hblanks.1
    exact absurd hs (callAfter?_eq_none_iff.1 h fn x (xs ++ rest) (hblanks.2 x mem_cons_self))
  | some found =>
    obtain ⟨g, blanks'⟩ := found
    obtain ⟨rest', hs', hblanks', hink'⟩ := hfound h
    obtain rfl : fn = g := by
      apply Builtin.name_injective
      rw [← takeWhile_name fn hblanks rest, ← takeWhile_name g hblanks' rest', ← hs, ← hs']
    have hsame := congrArg (takeWhile isBlank) (append_cancel_left (hs.symm.trans hs'))
    rw [takeWhile_isBlank_append hblanks.2 hink, takeWhile_isBlank_append hblanks'.2 hink'] at hsame
    rw [hsame]

/-- After a dollar sign and a parenthesis there is a call, or else a name. -/
theorem afterDollar?_opening (b : Brace) (s : Text) : afterDollar? (b.opening :: s) =
    some ((callAfter? s).elim (.reference b.opening) fun p => .call b p.1 p.2) := by
  cases hcall : callAfter? s <;> cases b <;>
    simp [afterDollar?, Brace.opening, Brace.ofOpening?, hcall]

theorem match?_reference_iff : match? ('$' :: b.opening :: s) = some (.reference b.opening) ↔
    callAfter? s = none := by
  show afterDollar? (b.opening :: s) = _ ↔ _
  rw [afterDollar?_opening]
  cases callAfter? s <;> simp

theorem match?_call_iff : match? ((call b fn blanks).text ++ s) = some (.call b fn blanks) ↔
    Text.Blanks blanks ∧ Text.Ink s := by
  show afterDollar? (b.opening :: (fn.name ++ blanks ++ s)) = _ ↔ _
  have hcall : callAfter? (fn.name ++ blanks ++ s) = some (fn, blanks) ↔ Text.Blanks blanks ∧
      Text.Ink s := by
    rw [callAfter?_eq_some_iff, append_assoc]
    constructor
    · rintro ⟨rest, hs, h⟩
      rwa [append_cancel_left (append_cancel_left hs)]
    · exact fun h => ⟨s, rfl, h⟩
  rw [afterDollar?_opening, ← hcall]
  rcases callAfter? (fn.name ++ blanks ++ s) with _ | ⟨g, v⟩ <;> simp

/-- No function name has the character, and it is not blank. -/
def Border (x : Char) : Prop := isBlank x = false ∧ ∀ f : Builtin, x ∉ f.name

/-- **A call is found before a character that no name goes on across**, or not at all. -/
theorem callAfter?_append_iff (hx : Border x) (p z : Text) :
    callAfter? (p ++ x :: z) = none ↔ callAfter? p = none := by
  rw [callAfter?_eq_none_iff, callAfter?_eq_none_iff]
  constructor
  · rintro h f c rest hc rfl
    exact h f c (rest ++ x :: z) hc (by simp)
  · intro h f c rest hc heq
    have hno : x ∉ f.name ++ [c] := by
      rw [mem_append, mem_singleton, not_or]
      refine ⟨hx.2 f, ?_⟩
      rintro rfl
      exact absurd hc (by simp [hx.1])
    obtain ⟨rest', hrest'⟩ := exists_append_of_not_mem (by simpa using heq) hno
    exact h f c rest' hc (by simpa using hrest')

theorem border_dollar : Border '$' := ⟨by decide, fun f => by cases f <;> decide⟩

theorem border_colon : Border ':' := ⟨by decide, fun f => by cases f <;> decide⟩

theorem border_closing (b : Brace) : Border b.closing := by
  cases b
  · exact ⟨by decide, fun f => by cases f <;> decide⟩
  · exact ⟨by decide, fun f => by cases f <;> decide⟩

/-! ## The start of a text -/

theorem opening_of_ofOpening? {b : Brace} (h : Brace.ofOpening? c = some b) : b.opening = c := by
  unfold Brace.ofOpening? at h
  split at h <;> cases h <;> rfl

theorem exists_append_of_afterDollar? (h : afterDollar? s = some t) :
    ∃ rest, '$' :: s = t.text ++ rest := by
  unfold afterDollar? at h
  split at h
  · cases h
    exact ⟨[], rfl⟩
  · cases h
    exact ⟨['\n'], rfl⟩
  · cases h
  · split at h
    · rename_i b hb
      split at h
      · rename_i hc
        cases h
        obtain ⟨rest, rfl, -⟩ := callAfter?_eq_some_iff.1 hc
        exact ⟨rest, by simp [text, opening_of_ofOpening? hb]⟩
      · cases h
        exact ⟨_, rfl⟩
    · cases h
      exact ⟨_, rfl⟩

theorem isReference_of_afterDollar? (h : afterDollar? s = some t) : t.isReference = true := by
  unfold afterDollar? at h
  split at h
  · cases h
    rfl
  · cases h
    rfl
  · cases h
  · split at h
    · split at h <;> cases h <;> rfl
    · cases h
      rfl

/-- The marks that are tokens wherever they stand, and the colon. -/
def marks : List Text :=
  [[':', '='], ['+', '='], ['?', '='], [':', ':'], [':']] ++ singles.map ([·])

/-- A token is a hash sign after backslashes, one of the marks, or begins with a dollar sign. -/
theorem match?_cases (h : match? s = some t) :
    (∃ n rest, t = .hash n ∧ s = t.text ++ rest) ∨
    (∃ w ∈ marks, t = .mark w ∧ ∃ rest, s = w ++ rest) ∨
      ∃ rest, s = '$' :: rest ∧ afterDollar? rest = some t := by
  unfold match? at h
  dsimp only at h
  split at h
  · rename_i rest hd
    cases h
    refine .inl ⟨_, rest, rfl, ?_⟩
    rw [text, Line.copies_takeWhile, append_assoc, singleton_append, ← hd]
    exact (prefix_iff_eq_append.1 <| takeWhile_prefix _).symm
  · split at h
    case h_5 => exact .inr (.inr ⟨_, rfl, h⟩)
    case h_9 =>
      split at h
      · rename_i hc
        cases h
        refine .inr (.inl ⟨_, mem_append_right _ (mem_map_of_mem ?_), rfl, _, rfl⟩)
        simpa using hc
      · cases h
    all_goals cases h
    all_goals exact .inr (.inl ⟨_, by decide, rfl, _, rfl⟩)

/-- **A token is the start of the text that it was found in.** -/
theorem exists_append_of_match? (h : match? s = some t) : ∃ rest, s = t.text ++ rest := by
  obtain ⟨_, rest, -, hs⟩ | ⟨w, -, rfl, rest, hs⟩ | ⟨rest, rfl, hd⟩ := match?_cases h
  · exact ⟨rest, hs⟩
  · exact ⟨rest, hs⟩
  · exact exists_append_of_afterDollar? hd

theorem text_ne_nil_of_match? (h : match? s = some t) : t.text ≠ [] := by
  obtain ⟨_, _, rfl, -⟩ | ⟨w, hw, rfl, -⟩ | ⟨rest, rfl, hd⟩ := match?_cases h
  · simp [text]
  · have hmarks : ∀ w ∈ marks, w ≠ [] := by decide
    exact hmarks w hw
  · have href := isReference_of_afterDollar? hd
    cases t <;> simp_all [isReference, text]

/-- A text begins with a character at which no token begins, or with a token. -/
theorem match?_induction {motive : Text → Prop} (nil : motive [])
    (char : ∀ c s, match? (c :: s) = none → motive s → motive (c :: s))
    (token : ∀ t s, match? (t.text ++ s) = some t → motive s → motive (t.text ++ s)) (s : Text) :
    motive s := by
  induction s using pieces_induction with
  | nil => exact nil
  | cons c s ih =>
    cases ht : match? (c :: s) with
    | none => exact char c s ht (ih [c] s rfl (cons_ne_nil _ _))
    | some t =>
      obtain ⟨rest, hrest⟩ := exists_append_of_match? ht
      rw [hrest] at ht ⊢
      exact token t rest ht (ih t.text rest hrest (text_ne_nil_of_match? ht))

/-- The characters that tokens begin with. -/
def starts : List Char := ['\\', ':', '+', '?', '$'] ++ singles

theorem mem_starts_of_match? (h : match? (c :: s) = some t) : c ∈ starts := by
  obtain ⟨n, rest, rfl, hs⟩ | ⟨w, hw, rfl, rest, hs⟩ | ⟨rest, hs, -⟩ := match?_cases h
  · cases n with
    | zero =>
      cases hs
      decide
    | succ n =>
      cases hs
      decide
  · have hmarks : ∀ w ∈ marks, ∀ x ∈ w.head?, x ∈ starts := by decide
    refine hmarks w hw c ?_
    cases w with
    | nil => exact absurd rfl (text_ne_nil_of_match? h)
    | cons a w =>
      cases hs
      rfl
  · cases hs
    decide

theorem match?_eq_none (h : c ∉ starts) (s : Text) : match? (c :: s) = none := by
  cases ht : match? (c :: s) with
  | none => rfl
  | some t => exact absurd (mem_starts_of_match? ht) h

/-- No token begins with the character, and it is not blank. -/
def Inert (c : Char) : Prop := c ∉ starts ∧ isBlank c = false

/-! ## Tokens at the border of two texts -/

/-- The characters of the tokens that have more than one and do not begin with a dollar sign. -/
def joints : List Char := ['\\', '#', ':', '+', '?', '=']

/-- No token begins in the one text and ends in the other. -/
def Apart (s z : Text) : Prop := (∀ x ∈ s, x ∉ joints) ∨ ∀ y ∈ z.head?, y ∉ joints

theorem Apart.of_append (h : Apart (w ++ s) z) : Apart s z :=
  h.imp_left fun hs x hx => hs x (mem_append_right w hx)

theorem hash_or_mark (h : match? s = some t) (hs : s.head? ≠ some '$') :
    (∃ n, t = .hash n) ∨ ∃ w ∈ marks, t = .mark w := by
  obtain ⟨n, _, ht, -⟩ | ⟨w, hw, ht, -⟩ | ⟨rest, rfl, -⟩ := match?_cases h
  · exact .inl ⟨n, ht⟩
  · exact .inr ⟨w, hw, ht⟩
  · cases hs rfl

theorem head_ne_dollar (h : match? s = some t) (hmark : t.isReference = false) :
    s.head? ≠ some '$' := by
  intro hhead
  obtain ⟨rest, rfl⟩ := head?_eq_some_iff.1 hhead
  simp [isReference_of_afterDollar? (show afterDollar? rest = some t from h)] at hmark

theorem mem_text_hash {n : Nat} (hc : c ∈ (hash n).text) : c = '\\' ∨ c = '#' :=
  (mem_append.1 hc).imp (eq_of_mem_replicate ·) (by simpa using ·)

theorem dollar_not_mem (h : match? s = some t) (hs : s.head? ≠ some '$') : '$' ∉ t.text := by
  obtain ⟨n, rfl⟩ | ⟨w, hw, rfl⟩ := hash_or_mark h hs
  · exact fun hc => by simpa using mem_text_hash hc
  · have hmarks : ∀ w ∈ marks, '$' ∉ w := by decide
    exact hmarks w hw

/-- A token of more than one character is made of joints. -/
theorem length_eq_one_or_joints (h : match? s = some t) (hs : s.head? ≠ some '$') :
    t.text.length = 1 ∨ ∀ x ∈ t.text, x ∈ joints := by
  obtain ⟨n, rfl⟩ | ⟨w, hw, rfl⟩ := hash_or_mark h hs
  · refine .inr fun x hx => ?_
    rcases mem_text_hash hx with rfl | rfl <;> decide
  · have hmarks : ∀ w ∈ marks, w.length = 1 ∨ ∀ x ∈ w, x ∈ joints := by decide
    exact hmarks w hw

/-- A token that begins in the first of two texts that are apart also ends there. -/
theorem exists_append_of_apart (hz : Apart (c :: s) z) (hc : c ≠ '$')
    (h : match? (c :: s ++ z) = some t) : ∃ rest, c :: s = t.text ++ rest := by
  obtain ⟨rest, hrest⟩ := exists_append_of_match? h
  rcases append_eq_append_iff.1 hrest with ⟨w, ht, hw⟩ | ⟨w, hw, -⟩
  · cases w with
    | nil => exact ⟨[], by simpa using ht.symm⟩
    | cons y w =>
      rcases length_eq_one_or_joints h (by simpa using hc) with hlen | hjoints
      · simp [ht] at hlen
      · rcases hz with hs | hz
        · exact absurd (hjoints c (by simp [ht])) (hs c mem_cons_self)
        · exact absurd (hjoints y (by simp [ht])) (hz y (by simp [hw]))
  · exact ⟨w, hw⟩

/-! ## What a token sees -/

/-- The characters that can go on a token that has begun before them. -/
def goings : List Char := ['=', ':', '/', '\\', '#']

/-- What tokens that begin before a text can see of it. -/
def lookahead (z : Text) : Option Char := z.head?.filter (· ∈ goings)

theorem match?_backslash (s : Text) : match? ('\\' :: s) =
    if (s.dropWhile (· == '\\')).head? = some '#' then some
      (.hash ((s.takeWhile (· == '\\')).length + 1))
    else none := by
  unfold match?
  simp only [takeWhile_cons, beq_self_eq_true, if_true, length_cons, drop_succ_cons,
    Line.drop_takeWhile]
  rcases s.dropWhile (· == '\\') with _ | ⟨x, rest⟩
  · rfl
  · by_cases hx : x = '#'
    · subst hx
      simp
    · simp [hx, singles]

/-- The token at a character that is no backslash and no dollar sign, if `next` is what it can see
after it. -/
def markAt (a : Char) (next : Option Char) : Option Token :=
  if a = '#' then some (.hash 0)
  else if next = some '=' ∧ a ∈ [':', '+', '?'] then some (.mark [a, '='])
  else if a = ':' then
    if next = some ':' then some (.mark [':', ':'])
    else if next = some '/' ∨ next = some '\\' then none else some (.mark [':'])
  else if a ∈ singles then some (.mark [a]) else none

theorem match?_eq_markAt (hslash : a ≠ '\\') (hdollar : a ≠ '$') (s : Text) :
    match? (a :: s) = markAt a (lookahead s) := by
  have hzero : ((a :: s).takeWhile (· == '\\')).length = 0 := by simp [hslash]
  unfold match?
  dsimp only
  rw [hzero, drop_zero]
  by_cases hhash : a = '#'
  · subst hhash
    rfl
  by_cases hcolon : a = ':'
  · subst hcolon
    rcases s with _ | ⟨x, s⟩
    · rfl
    by_cases h1 : x = '='
    · subst h1; rfl
    by_cases h2 : x = ':'
    · subst h2; rfl
    by_cases h3 : x = '/'
    · subst h3; rfl
    by_cases h4 : x = '\\'
    · subst h4; rfl
    simp [lookahead, goings, markAt, h1, h2, h3, h4]
  by_cases hsign : a = '+' ∨ a = '?'
  · rcases s with _ | ⟨x, s⟩
    · rcases hsign with rfl | rfl <;> rfl
    by_cases h1 : x = '='
    · subst h1
      rcases hsign with rfl | rfl <;> rfl
    · rcases hsign with rfl | rfl <;> simp [lookahead, goings, markAt, h1, singles, Option.filter]
  · rw [not_or] at hsign
    simp [markAt, hhash, hcolon, hsign.1, hsign.2]

/-- **A token sees one character at most after the text that it begins in**, if that is no
backslash. -/
theorem match?_append_congr (hp : p ≠ []) (hdollar : p.head? ≠ some '$')
    (h : lookahead z = lookahead z')
    (hz : lookahead z ≠ some '\\') : match? (p ++ z) = match? (p ++ z') := by
  obtain ⟨a, p, rfl⟩ := exists_cons_of_ne_nil hp
  rw [cons_append, cons_append]
  by_cases hslash : a = '\\'
  · subst hslash
    have hzero {z : Text} (hz : lookahead z ≠ some '\\') :
        z.takeWhile (· == '\\') = [] ∧ z.dropWhile (· == '\\') = z := by
      cases z with
      | nil => exact ⟨rfl, rfl⟩
      | cons x z =>
        have hx : x ≠ '\\' := by
          rintro rfl
          exact hz rfl
        simp [hx]
    have hhash (z : Text) : z.head? = some '#' ↔ lookahead z = some '#' := by
      cases z with
      | nil => simp [lookahead]
      | cons x z =>
        by_cases hx : x = '#'
        · subst hx
          simp [lookahead, goings]
        · simp [lookahead, Option.filter, hx]
    obtain ⟨htake, hdrop⟩ := hzero hz
    obtain ⟨htake', hdrop'⟩ := hzero (h ▸ hz)
    rw [match?_backslash, match?_backslash, dropWhile_append, dropWhile_append, takeWhile_append,
      takeWhile_append, htake, hdrop, htake', hdrop']
    cases hall : (p.dropWhile (· == '\\')).isEmpty with
    | true => simp only [if_true, hhash, h]
    | false =>
      obtain ⟨x, rest, hrest⟩ :=
        exists_cons_of_ne_nil (by simpa using hall : p.dropWhile (· == '\\') ≠ [])
      simp [hrest]
  · have ha : a ≠ '$' := by simpa using hdollar
    rw [match?_eq_markAt hslash ha, match?_eq_markAt hslash ha]
    cases p with
    | nil => rw [nil_append, nil_append, h]
    | cons x p => rfl

/-! ## Parentheses -/

theorem opening_ne_closing (b : Brace) : b.opening ≠ b.closing := by cases b <;> decide

theorem match?_opening (b : Brace) (z : Text) :
    match? ([b.opening] ++ z) = some (.mark [b.opening]) := by
  cases b <;> rfl

theorem match?_closing (b : Brace) (z : Text) :
    match? ([b.closing] ++ z) = some (.mark [b.closing]) := by
  cases b <;> rfl

/-- No token goes on across a closing parenthesis. -/
theorem closing_not_mem_joints (b : Brace) : b.closing ∉ joints := by cases b <;> decide

theorem isReference_eq_false (ht : match? (c :: s) = some t) (hc : c ≠ '$') :
    t.isReference = false := by
  obtain ⟨k, rfl⟩ | ⟨w, -, rfl⟩ := hash_or_mark ht (by simpa using hc) <;> rfl

end Token

end Rebuild
