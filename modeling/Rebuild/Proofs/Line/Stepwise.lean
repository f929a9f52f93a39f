import Rebuild.Proofs.Expansion.Reading
/-!
# Flattening token by token

Makefile text is flattened in two ways. At once: continuations are condensed in the whole text, and
what is left is looked through for comments (`Line.flatten`). Or token by token: continuations are
condensed between the tokens, and a hash sign is a comment by the backslashes of the text as it
stands (`Piece.ofLine`). If no token is asked for, the two give the same text (`joined_eq_flatten`).
No continuation reaches into a token (`condense_append`), and condensing leaves the backslashes
before a hash sign as they are, so the comment is found in the same place (`uncomment_append`).
-/

namespace Rebuild

open List Text Token Line

namespace Line

variable {u z : Text} {c : Char} {n : Nat}

/-! ## What condensing puts in -/

theorem suffix_of_continuation? {after : Text} (h : continuation? u = some (n, after)) :
    after <:+ u := by
  unfold continuation? at h
  split at h
  · rename_i rest hrest
    cases h
    have hdrop : rest <:+ u := ((suffix_cons _ _).trans (suffix_cons _ _)).trans
      (hrest ▸ dropWhile_suffix _)
    exact (dropWhile_suffix _).trans hdrop
  · dsimp only at h
    split at h
    · rename_i rest hrest
      split at h
      · cases h
        have hdrop : rest <:+ u := (suffix_cons _ _).trans (hrest ▸ drop_suffix _ _)
        exact (dropWhile_suffix _).trans hdrop
      · cases h
    · cases h

theorem condense_ne_nil (h : u ≠ []) : condense u ≠ [] := by
  obtain ⟨a, v, rfl⟩ := exists_cons_of_ne_nil h
  rw [condense]
  split <;> simp

/-- Condensing puts in spaces and backslashes. -/
theorem mem_condense (h : c ∈ condense u) : c ∈ u ∨ c = ' ' ∨ c = '\\' := by
  induction u using condense_induction with
  | nil =>
    rw [condense] at h
    exact .inl h
  | continued u k after hu ih =>
    obtain ⟨v, hv⟩ := suffix_of_continuation? hu
    rw [condense_of_some hu] at h
    rcases mem_append.1 h with h | h
    · exact .inr (.inr (eq_of_mem_replicate h))
    rcases mem_cons.1 h with rfl | h
    · exact .inr (.inl rfl)
    · exact (ih h).imp_left fun hafter => hv ▸ mem_append_right v hafter
  | stays a u hu ih =>
    rw [condense_of_none hu] at h
    rcases mem_cons.1 h with rfl | h
    · exact .inl mem_cons_self
    · exact (ih h).imp_left (mem_cons_of_mem a)

/-- Condensing puts no backslash at the end. -/
theorem getLast?_of_condense (h : (condense u).getLast? = some '\\') : u.getLast? = some '\\' := by
  induction u using condense_induction with
  | nil =>
    rw [condense] at h
    exact h
  | continued u k after hu ih =>
    obtain ⟨v, hv⟩ := suffix_of_continuation? hu
    rw [condense_of_some hu, getLast?_append, getLast?_cons] at h
    cases hafter : (condense after).getLast? with
    | none =>
      simp [hafter] at h
    | some c =>
      rw [hafter] at h
      cases h
      rw [← hv, getLast?_append, ih hafter]
      rfl
  | stays a u hu ih =>
    rw [condense_of_none hu, getLast?_cons] at h
    rw [getLast?_cons]
    cases hlast : (condense u).getLast? with
    | none =>
      have hnil : u = [] := by
        by_contra hne
        exact condense_ne_nil hne (getLast?_eq_none_iff.1 hlast)
      rw [hlast] at h
      rw [hnil]
      exact h
    | some c =>
      rw [hlast] at h
      cases h
      rw [ih hlast]
      rfl

/-! ## Comments -/

theorem uncomment_cons (hhash : c ≠ '#') (hslash : c ≠ '\\') (z : Text) :
    uncomment (c :: z) = c :: uncomment z := by
  rw [uncomment]
  · exact hhash
  · exact hslash

theorem dropWhile_copies (n : Nat) (hc : c ≠ '\\') (z : Text) :
    (copies n '\\' ++ c :: z).dropWhile (· == '\\') = c :: z := by
  rw [dropWhile_append_of_pos fun a ha => by simp [eq_of_mem_replicate ha],
    dropWhile_cons_of_neg (by simpa using hc)]

theorem takeWhile_copies (n : Nat) (hc : c ≠ '\\') (z : Text) :
    ((copies n '\\' ++ c :: z).takeWhile (· == '\\')).length = n := by
  rw [takeWhile_append_of_pos fun a ha => by simp [eq_of_mem_replicate ha],
    takeWhile_cons_of_neg (by simpa using hc), append_nil]
  exact length_replicate

/-- Backslashes before a character other than a hash sign stay as they are. -/
theorem uncomment_slashes (hhash : c ≠ '#') (hslash : c ≠ '\\') (n : Nat) (z : Text) :
    uncomment (copies n '\\' ++ c :: z) = copies n '\\' ++ c :: uncomment z := by
  cases n with
  | zero => exact uncomment_cons hhash hslash z
  | succ n =>
    show uncomment ('\\' :: (copies n '\\' ++ c :: z)) = _
    rw [uncomment]
    split
    · rename_i after hafter
      rw [dropWhile_copies n hslash] at hafter
      exact absurd (List.cons.inj hafter).1 hhash
    · rw [dropWhile_copies n hslash, takeWhile_copies n hslash, uncomment_cons hhash hslash,
        Nat.add_comm]

/-- Backslashes before a hash sign are halved; an even number of them leaves a comment, an odd
number quotes the sign. -/
theorem uncomment_hash (n : Nat) (z : Text) : uncomment (copies n '\\' ++ '#' :: z) =
    copies (n / 2) '\\' ++ if n % 2 = 0 then [] else '#' :: uncomment z := by
  cases n with
  | zero =>
    show uncomment ('#' :: z) = []
    rw [uncomment]
  | succ n =>
    show uncomment ('\\' :: (copies n '\\' ++ '#' :: z)) = _
    rw [uncomment, takeWhile_copies n (by decide), Nat.add_comm]
    split
    · rename_i after hafter
      rw [dropWhile_copies n (by decide)] at hafter
      cases hafter
      split <;> simp
    · rename_i hnot
      exact absurd (dropWhile_copies n (by decide) z) (hnot z)

/-- A text is made of runs of backslashes with another character after each, and a run at its
end. -/
theorem slashes_induction {motive : Text → Prop} (run : ∀ n, motive (copies n '\\'))
    (step : ∀ n c v, c ≠ '\\' → motive v → motive (copies n '\\' ++ c :: v)) (u : Text) :
    motive u := by
  induction hlen : u.length using Nat.strongRecOn generalizing u with
  | _ n ih =>
    have hsplit := takeWhile_append_dropWhile (p := (· == '\\')) (l := u)
    rw [← copies_takeWhile u '\\'] at hsplit
    generalize (u.takeWhile (· == '\\')).length = k at hsplit
    cases hdrop : u.dropWhile (· == '\\') with
    | nil =>
      rw [hdrop, append_nil] at hsplit
      exact hsplit ▸ run k
    | cons c v =>
      have hslash : c ≠ '\\' := by
        have hhead := head?_dropWhile_not (· == '\\') u
        rw [hdrop] at hhead
        simpa using hhead
      rw [hdrop] at hsplit
      have hv : v.length < n := by
        rw [← hlen, ← hsplit, length_append, length_cons]
        omega
      exact hsplit ▸ step k c v hslash (ih _ hv v rfl)

/-- **Text without hash signs is no part of a comment and quotes none**, if it does not end in a
backslash. -/
theorem uncomment_append (hu : '#' ∉ u) (hlast : u.getLast? ≠ some '\\') (z : Text) :
    uncomment (u ++ z) = u ++ uncomment z := by
  induction u using slashes_induction with
  | run n =>
    cases n with
    | zero => rfl
    | succ n => exact absurd (by simp [copies, getLast?_replicate]) hlast
  | step n c v hslash ih =>
    have hhash : c ≠ '#' := by
      rintro rfl
      exact hu (by simp)
    have hv : uncomment (v ++ z) = v ++ uncomment z := by
      refine ih (fun hmem => hu (by simp [hmem])) fun hv => hlast ?_
      rw [getLast?_append, getLast?_cons, hv]
      rfl
    rw [append_assoc, cons_append, uncomment_slashes hhash hslash, hv, append_assoc]
    rfl

/-- A text that begins with ink does so without its comment. -/
theorem head_uncomment (hu : ∀ c ∈ u.head?, isBlank c = false) :
    ∀ c ∈ (uncomment u).head?, isBlank c = false := by
  have hslash : isBlank '\\' = false := by decide
  have hcopies (n : Nat) {z : Text} (hz : ∀ c ∈ z.head?, isBlank c = false) :
      ∀ c ∈ (copies n '\\' ++ z).head?, isBlank c = false := by
    cases n with
    | zero => exact hz
    | succ n =>
      rintro c ⟨⟩
      exact hslash
  fun_cases uncomment u with
  | case1 => simp
  | case2 => simp
  | case3 rest slashes after hdrop heven => simpa using hcopies (slashes / 2) (z := []) (by simp)
  | case4 rest slashes after hdrop hodd =>
    refine hcopies (slashes / 2) ?_
    rintro c ⟨⟩
    decide
  | case5 rest slashes hnot =>
    have hpos : slashes = (slashes - 1) + 1 := by omega
    rw [hpos]
    rintro c ⟨⟩
    exact hslash
  | case6 c rest => exact hu

theorem hash_not_mem_condense (hu : '#' ∉ u) : '#' ∉ condense u := by
  intro h
  rcases mem_condense h with h | h | h
  · exact hu h
  · cases h
  · cases h

/-- Condensed text is no part of a comment if the text is not. -/
theorem uncomment_condense_append (hu : '#' ∉ u) (hlast : u.getLast? ≠ some '\\') (z : Text) :
    uncomment (condense u ++ z) = condense u ++ uncomment z :=
  uncomment_append (hash_not_mem_condense hu) (fun h => hlast (getLast?_of_condense h)) z

end Line

/-! ## Token by token -/

/-- A hash sign after backslashes is a token wherever it stands. -/
theorem Token.match?_hash (n : Nat) (z : Text) :
    match? (copies n '\\' ++ '#' :: z) = some (.hash n) := by
  have hdrop : (copies n '\\' ++ '#' :: z).drop n = '#' :: z := by
    rw [drop_append_of_le_length (by simp [copies])]
    simp [copies]
  unfold match?
  simp only [takeWhile_copies n (by decide : '#' ≠ '\\'), hdrop]

/-- A mark has no hash sign, and no backslash. -/
theorem Token.not_mem_of_match?_mark {w s : Text} (h : match? s = some (.mark w)) :
    w ∈ marks ∧ '#' ∉ w ∧ '\\' ∉ w := by
  obtain ⟨_, _, ht, -⟩ | ⟨_, hw, ht, rest, rfl⟩ | ⟨_, rfl, hd⟩ := match?_cases h
  · cases ht
  · cases ht
    have hmarks : ∀ w ∈ marks, (w = ['#'] ∨ '#' ∉ w) ∧ '\\' ∉ w := by decide
    refine ⟨hw, (hmarks w hw).1.resolve_left ?_, (hmarks w hw).2⟩
    rintro rfl
    have hhash := match?_hash 0 rest
    rw [show copies 0 '\\' ++ '#' :: rest = ['#'] ++ rest from rfl, h] at hhash
    cases hhash
  · cases isReference_of_afterDollar? hd

namespace Piece

open Line (condense uncomment)

/-- The texts of the pieces, put together. -/
def joined (ps : List Piece) : Text := ps.flatMap Piece.text

section

variable {tokens : List Text} {before s : Text} {offset n : Nat} {xs : List Lexeme} {tail : Text}

/-- A hash sign after backslashes: nothing of it is in a continuation, and it is a comment or
quoted. -/
theorem flatten_hash (hhash : '#' ∉ before) (hlast : before.head? ≠ some '\\')
    (n : Nat) (s : Text) :
    uncomment (condense (before.reverse ++ (copies n '\\' ++ '#' :: s))) =
    condense before.reverse ++
      (copies (n / 2) '\\' ++ if n % 2 = 0 then [] else '#' :: uncomment (condense s)) := by
  have hstretch : condense (before.reverse ++ copies n '\\') = condense before.reverse ++
      copies n '\\' := by
    have hnewline : '\n' ∉ copies n '\\' := fun hn => absurd (eq_of_mem_replicate hn) (by decide)
    rw [condense_append (fun c hc => ?_) fun hn => hnewline ?_, condense_eq_self hnewline]
    · rw [eq_of_mem_replicate (mem_of_mem_head? hc)]
      decide
    · exact (dropWhile_sublist _).mem (mem_of_mem_head? hn)
  rw [← append_assoc, condense_append_cons (by decide) (by decide), hstretch, append_assoc,
    uncomment_condense_append (by simpa using hhash) (by simpa using hlast), uncomment_hash]

/-- Any other mark stays as it is, and what stands before and after it is flattened by itself. -/
theorem flatten_mark {w : Text} (hhash : '#' ∉ before) (hmatch : match? (w ++ s) = some (.mark w)) :
    uncomment (condense (before.reverse ++ (w ++ s))) =
      condense before.reverse ++ w ++ uncomment (condense s) := by
  obtain ⟨hw, hwhash, hwslash⟩ := not_mem_of_match?_mark hmatch
  have hne : w ≠ [] := text_ne_nil_of_match? hmatch
  have hpass : ∀ c ∈ w, (Mode.makefile true).PassesAt c := by
    have hmarks : ∀ w ∈ marks, ∀ c ∈ w, isBlank c = false ∧ c ≠ '\\' := by decide
    exact fun c hc => Mode.passesAt_makefile (hmarks w hw c hc).1 (hmarks w hw c hc).2
  have hflat : condense (before.reverse ++ (w ++ s)) = condense before.reverse ++ w ++ condense s :=
    Mode.flat_append hne hpass _ _
  have hflat' : condense (before.reverse ++ w) = condense before.reverse ++ w := by
    have := Mode.flat_append hne hpass before.reverse []
    rwa [append_nil, Mode.flat_nil, append_nil] at this
  rw [hflat, ← hflat']
  refine uncomment_condense_append (by simp [hhash, hwhash]) (fun hlast => hwslash ?_) _
  rw [getLast?_append, getLast?_eq_some_getLast hne, Option.some_or] at hlast
  exact Option.some.inj hlast ▸ getLast_mem hne

/-- The piece before a hash sign after backslashes, and what comes after it. -/
theorem joined_hash (hhash : '#' ∉ before) (hlast : before.head? ≠ some '\\')
    (hrest : joined (ofLexemes (.makefile true) tokens tail xs) = uncomment (condense s)) :
    joined (ofLexemes (.makefile true) tokens tail (⟨before.reverse, .hash n, offset⟩ :: xs)) =
      uncomment (condense (before.reverse ++ (copies n '\\' ++ '#' :: s))) := by
  have hread : (Mode.makefile true).read tokens ⟨before.reverse, .hash n, offset⟩ =
      if n % 2 = 0 then .ended (condense before.reverse ++ copies (n / 2) '\\')
      else .plain (condense before.reverse ++ copies (n / 2) '\\' ++ ['#']) := rfl
  rw [flatten_hash hhash hlast, ofLexemes, hread]
  by_cases hn : n % 2 = 0
  · simp [hn, joined]
  · rw [if_neg hn, if_neg hn, ← hrest]
    simp [joined]

/-- The piece before a mark that was not asked for, and what comes after it. -/
theorem joined_mark {w : Text} (hhash : '#' ∉ before)
    (hmatch : match? (w ++ s) = some (.mark w)) (hno : w ∉ tokens)
    (hrest : joined (ofLexemes (.makefile true) tokens tail xs) = uncomment (condense s)) :
    joined (ofLexemes (.makefile true) tokens tail (⟨before.reverse, .mark w, offset⟩ :: xs)) =
      uncomment (condense (before.reverse ++ (w ++ s))) := by
  have hread : (Mode.makefile true).read tokens ⟨before.reverse, .mark w, offset⟩ =
      .plain (condense before.reverse ++ w) := by
    have hwants : Mode.wants tokens (.mark w) = false := by
      simpa [Mode.wants, Token.isReference, Token.text] using hno
    simp [Mode.read, Mode.hash?, hwants, Token.text, Mode.flat]
  rw [flatten_mark hhash hmatch, ofLexemes, hread, ← hrest]
  simp [joined]

/-- **Flattening token by token is flattening at once.** The characters since the last token have no
hash sign, and the backslashes before one are part of its token. -/
theorem joined_scan (hdollar : '$' ∉ s)
    (hno : ∀ x ∈ (Lexeme.scan before offset s).1, x.token.text ∉ tokens)
    (hhash : '#' ∉ before)
    (hrun : ∀ n z, s = copies n '\\' ++ '#' :: z → before.head? ≠ some '\\') :
    joined (ofLexemes (.makefile true) tokens (Lexeme.scan before offset s).2
      (Lexeme.scan before offset s).1) =
      uncomment (condense (before.reverse ++ s)) := by
  induction s using match?_induction generalizing before offset with
  | nil =>
    rw [Lexeme.scan, ofLexemes, append_nil,
      uncomment_eq_self (hash_not_mem_condense (by simpa using hhash))]
    exact append_nil _
  | char c s ht ih =>
    have hscan : Lexeme.scan before offset (c :: s) = Lexeme.scan (c :: before) (offset + 1) s := by
      rw [Lexeme.scan]
      simp only [ht]
    rw [hscan] at hno ⊢
    rw [ih (fun h => hdollar (mem_cons_of_mem c h)) hno ?_ ?_, reverse_cons, append_assoc,
      singleton_append]
    · intro h
      rcases mem_cons.1 h with rfl | h
      · cases (match?_hash 0 s).symm.trans ht
      · exact hhash h
    · -- a backslash before a hash sign would have begun the token
      rintro n z rfl hslash
      cases hslash
      cases (match?_hash (n + 1) z).symm.trans ht
  | token t rest ht ih =>
    have hhead : (t.text ++ rest).head? ≠ some '$' := fun hc => hdollar (mem_of_mem_head? hc)
    rw [Expansion.scan_token ht] at hno ⊢
    obtain ⟨hnot, hno⟩ := forall_mem_cons.1 hno
    have hrest := ih (fun h => hdollar (mem_append_right _ h)) hno not_mem_nil (by simp)
    rw [reverse_nil, nil_append] at hrest
    obtain ⟨n, rfl⟩ | ⟨w, hw, rfl⟩ := hash_or_mark ht hhead
    · have htext : (Token.hash n).text ++ rest = copies n '\\' ++ '#' :: rest := by
        simp [Token.text]
      rw [htext] at hrun ⊢
      exact joined_hash hhash (hrun n rest rfl) hrest
    · exact joined_mark hhash ht hnot hrest

end

/-- **Flattening token by token is flattening at once**: if a line has no dollar sign from an offset
on, and none of its tokens there is asked for, the texts of its pieces are, put together, its
flattened text. An offset outside of the line is refused by both. -/
theorem joined_eq_flatten (d : Line) (offset : Nat) (tokens : List Text)
    (hdollar : '$' ∉ d.rest offset)
    (hno : ∀ x ∈ (d.lexemes offset).1, x.token.text ∉ tokens) :
    (ofLine (.makefile true) tokens d offset).map joined = d.flatten? offset := by
  unfold ofLine flatten?
  by_cases hcovers : d.covers offset = true
  · rw [if_pos hcovers, if_neg (by simp [hcovers])]
    split
    · rename_i hstop
      have hrest : d.rest offset = [] := by simp [Line.rest, hstop, Line.stop]
      unfold Line.flatten
      rw [hrest, Line.condense_eq_self (by simp), Line.uncomment_eq_self (by simp)]
      rfl
    · exact congrArg Except.ok (joined_scan hdollar hno (by simp) (by simp))
  · rw [if_neg hcovers, if_pos (by simp [hcovers])]
    rfl

/-- Continuations, runs of backslashes, quoted hash signs, other marks and a comment. -/
def mixed : Text := "a: \\\n\t b\\\\\\\n(c)\\\\\\#d := \\#,\\\\x \\\n\\\\# e;\\\n"

theorem joined_eq_flatten_mixed : '$' ∉ (Line.ofText mixed "f").rest 0 ∧
    (∀ x ∈ ((Line.ofText mixed "f").lexemes 0).1, x.token.text ∉ [['='], [':', ':']]) ∧
    (ofLine (.makefile true) [['='], [':', ':']] (Line.ofText mixed "f") 0).map joined =
      (Line.ofText mixed "f").flatten? 0 ∧
    (Line.ofText mixed "f").flatten? 0 = .ok "a: b\\ (c)\\#d := #,\\\\x \\" := by
  have hno : ∀ x ∈ ((ofText mixed "f").lexemes 0).1, x.token.text ∉ [['='], [':', ':']] := by
    decide +kernel
  exact ⟨by decide, hno, joined_eq_flatten _ 0 _ (by decide) hno, by decide +kernel⟩

end Piece

end Rebuild
