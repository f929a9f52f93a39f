import Rebuild.Proofs.CommandLine
import Rebuild.Proofs.Text
/-!
# The words of a command line

A shell takes the characters of a line one by one: by the quoting it stands in, a character divides
words or adds something to the word it belongs to (`Quoting.adds`). A quote adds nothing, but it
makes a word even if that stays empty (`wordsOf`).

Splitting follows these rules but for the end of a line: an empty word is lost there, and a line may
end in double quotes if an escape stands at its end (`split_quoting`).
-/

namespace Rebuild

open List

namespace CommandLine

open Quoting Place Word

/-! ## Quoting -/

namespace Quoting

/-- What a character adds to its word. Between single quotes all is literal; between double quotes a
backslash quotes a double quote or a backslash, and stands for itself before all else. -/
def adds : Quoting → Char → Text
  | .start, c | .word, c => if c ∈ ['\x27', '\x22', '\\'] then [] else [c]
  | .single, c => if c = '\x27' then [] else [c]
  | .double, c => if c ∈ ['\x22', '\\'] then [] else [c]
  | .wordEscape, c => [c]
  | .doubleEscape, c => if c ∈ ['\x22', '\\'] then [c] else ['\\', c]
  | .comment, _ => []

/-- Is a quote open? -/
def isOpen : Quoting → Bool
  | .single | .double | .doubleEscape => true
  | _ => false

/-- The words of a line without comments from a quoting on: those that a blank ends, and the word at
the end of the line; `w` is the word begun. A backslash at the end has nothing to quote. -/
def read (q : Quoting) (w : Option Text) : Text → List Text × Option Text
  | [] => ([], if q = .wordEscape then some (w.getD [] ++ ['\\']) else w)
  | c :: s =>
    if q ∈ [start, word] ∧ (c = ' ' ∨ c = '\t') then
      (w.toList ++ (start.read none s).1, (start.read none s).2)
    else (q.step c).read (some (w.getD [] ++ q.adds c)) s

end Quoting

/-- The words of a line. -/
def wordsOf (line : Text) : List Text :=
  (start.read none line).1 ++ (start.read none line).2.toList

/-- The line ends with an empty word, and no blank after it. -/
def EndsEmpty (line : Text) : Prop := (start.read none line).2 = some []

/-- A quote of the line is left open. -/
def EndsOpen (line : Text) : Prop := (start.after line).isOpen = true

/-- The last character of the line follows a backslash in double quotes. -/
def EndsEscaped (line : Text) : Prop := start.after line.dropLast = .doubleEscape

instance (line : Text) : Decidable (EndsEmpty line) := inferInstanceAs (Decidable (_ = _))

instance (line : Text) : Decidable (EndsOpen line) := inferInstanceAs (Decidable (_ = _))

instance (line : Text) : Decidable (EndsEscaped line) := inferInstanceAs (Decidable (_ = _))

/-! ## Splitting follows quoting -/

/-- The characters that need neither a shell nor a look at the files, and that end no line. -/
def IsOrdinary (c : Char) : Prop := isSpecial c = false ∧ c ∉ ['\n', '\r', '#', '*', '?']

instance (c : Char) : Decidable (IsOrdinary c) := inferInstanceAs (Decidable (_ ∧ _))

/-- A word without wildcards. -/
def Word.plain (t : Text) : Word := ⟨t, false⟩

variable {s : Text} {w : Option Text} (line : Text)

theorem Word.push_plain (w : Option Text) (c : Char) :
    push (w.map plain) c = (some (w.getD [] ++ [c])).map plain := by
  cases w <;> rfl

theorem Word.begin_plain (w : Option Text) :
    begin (w.map plain) = (some (w.getD [] ++ [])).map plain := by
  cases w <;> simp [begin, plain]

/-- May a line end after a text that is read from a place on? Outside of quotes it may, and right
after an escape in double quotes. -/
def Place.mayEnd (place : Place) : Text → Bool
  | [] => place = .plain ∨ place = .double false
  | c :: s =>
    ¬ (place.quoting.after (c :: s)).isOpen ∨ place.quoting.after (c :: s).dropLast = .doubleEscape

/-- The words that splitting finds: an empty word at the end of a line is lost. -/
def found (r : List Text × Option Text) : List Word := (r.1 ++ r.2.toList.filter (· ≠ [])).map plain

/-- What splitting makes of a text from a place on, by the rules of quoting. -/
def outcome (place : Place) (w : Option Text) (s : Text) : Except Halt (List Word) :=
  if place.mayEnd s then .ok (found (place.quoting.read w s)) else .error .openQuote

section Steps

variable {place place' : Place} {q : Quoting} {c : Char} {s' t : Text} {w' : Option Text}

theorem outcome_congr (hend : place.mayEnd s = place'.mayEnd s')
    (hread : place.quoting.read w s = place'.quoting.read w' s') :
    outcome place w s = outcome place' w' s' := by
  rw [outcome, outcome, hend, hread]

/-- A character that divides no words adds to the word begun. -/
theorem Quoting.read_step (hc : q ∈ [start, word] → c ≠ ' ' ∧ c ≠ '\t') :
    q.read w (c :: s) = (q.step c).read (some (w.getD [] ++ q.adds c)) s := by
  rw [read, if_neg]
  rintro ⟨hq, hblank⟩
  exact hblank.elim (hc hq).1 (hc hq).2

theorem Quoting.after_cons : q.after (c :: s) = (q.step c).after s := rfl

/-- Where no comment begins, it does not matter whether a word has begun. -/
theorem Quoting.read_start (hs : s.head? ≠ some '#') : start.read w s = word.read w s := by
  cases s with
  | nil => rfl
  | cons c s =>
    have hc : c ≠ '#' := fun h => hs (congrArg some h)
    simp [read, step, adds, hc]

theorem Quoting.after_start (hs : s.head? ≠ some '#') (hne : s ≠ []) :
    start.after s = word.after s := by
  cases s with
  | nil => exact absurd rfl hne
  | cons c s =>
    have hstep : start.step c = word.step c := if_neg fun h => hs (congrArg some h)
    simp [after, hstep]

/-- A text without a character to escape does not end in an escape. -/
theorem Quoting.after_dropLast_start (hs : s.head? ≠ some '#') :
    start.after s.dropLast = .doubleEscape ↔ word.after s.dropLast = .doubleEscape := by
  by_cases hne : s.dropLast = []
  · rw [hne]
    decide
  · rw [after_start _ hne]
    rw [head?_dropLast]
    split
    · exact hs
    · simp

theorem Place.mayEnd_step (hq : place.quoting.step c = place'.quoting)
    (hp : place' ≠ .double false) :
    place.mayEnd (c :: s) = place'.mayEnd s := by
  cases s with
  | nil =>
    cases place <;> cases place' <;> simp_all [mayEnd, Quoting.after, quoting, Quoting.isOpen]
  | cons d s => simp [mayEnd, Quoting.after, hq]

theorem outcome_step (place place' : Place) (hq : place.quoting.step c = place'.quoting)
    (hp : place' ≠ .double false)
    (hc : place.quoting ∈ [start, word] → c ≠ ' ' ∧ c ≠ '\t') (ht : place.quoting.adds c = t) :
    outcome place w (c :: s) = outcome place' (some (w.getD [] ++ t)) s :=
  outcome_congr (mayEnd_step hq hp) (by rw [read_step hc, hq, ht])

theorem Place.mayEnd_blank (hc : c = ' ' ∨ c = '\t') (hs : s.head? ≠ some '#') :
    plain.mayEnd (c :: s) = plain.mayEnd s := by
  have hq : plain.quoting.step c = .start := by rcases hc with rfl | rfl <;> rfl
  cases s with
  | nil => simp [mayEnd, Quoting.after, hq, Quoting.isOpen]
  | cons d s =>
    have hcons (t : Text) : plain.quoting.after (c :: t) = start.after t := by rw [after_cons, hq]
    rw [mayEnd, mayEnd, decide_eq_decide, dropLast_cons_cons, hcons, hcons,
      after_start hs (cons_ne_nil d s), after_dropLast_start hs]
    rfl

theorem outcome_blank (hc : c = ' ' ∨ c = '\t') (hs : s.head? ≠ some '#') :
    outcome .plain w (c :: s) = (outcome .plain none s).map (w.toList.map plain ++ ·) := by
  have hread : plain.quoting.read w (c :: s) =
      (w.toList ++ (start.read none s).1, (start.read none s).2) := if_pos ⟨by decide, hc⟩
  rw [outcome, outcome, mayEnd_blank hc hs, hread, read_start hs]
  cases plain.mayEnd s <;> simp [Except.map, found, quoting]

/-- A backslash and the next character make one step, outside of quotes and in double quotes. -/
theorem outcome_escape (w : Option Text) (d : Char) (s : Text) :
    outcome .plain w ('\\' :: d :: s) = outcome .plain (some (w.getD [] ++ [d])) s ∧
    ∀ open?, outcome (.double open?) w ('\\' :: d :: s) =
      outcome (.double false) (some (w.getD [] ++ doubleEscape.adds d)) s := by
  refine ⟨outcome_congr (by cases s <;> rfl) ?_, fun open? => outcome_congr (by cases s <;> rfl) ?_⟩
  · refine (read_step (by decide)).trans ?_
    refine (read_step (q := .wordEscape) (by simp)).trans ?_
    simp [step, adds, quoting]
  · refine (read_step (by simp)).trans ?_
    refine (read_step (q := .doubleEscape) (by simp)).trans ?_
    simp [step, adds, quoting]

end Steps

/-! ## What a scan does with a character -/

section Scan

variable {c : Char} {b : Option Word} (open? : Bool)

theorem scan_blank (hc : c = ' ' ∨ c = '\t') :
    scan .plain b (c :: s) = (scan .plain none s).map (b.toList ++ ·) := by
  have hgap : isGap c = true := by rcases hc with rfl | rfl <;> rfl
  rw [scan.eq_def]
  simp only [hgap, if_true]
  cases b <;> cases scan .plain none s <;> rfl

theorem scan_plain (hc : c ∉ [' ', '\t', '\x27', '\x22', '\\']) (ho : IsOrdinary c) :
    scan .plain b (c :: s) = scan .plain (push b c) s := by
  simp only [IsOrdinary, mem_cons, not_mem_nil, or_false, not_or] at hc ho
  rw [scan.eq_def]
  simp [isGap, hc, ho]

theorem scan_escape (d : Char) : scan .plain b ('\\' :: d :: s) = scan .plain (push b d) s := by
  rw [scan.eq_def]
  simp [isGap, isSpecial]

theorem scan_last : scan .plain b ['\\'] = scan .plain (push b '\\') [] ∧
    scan (.double open?) b ['\\'] = .error .openQuote := by
  constructor <;> · rw [scan.eq_def]; simp [isGap, isSpecial]

theorem scan_quote : scan .plain b ('\x27' :: s) = scan .single (begin b) s ∧
    scan .plain b ('\x22' :: s) = scan (.double true) (begin b) s := by
  constructor <;> · rw [scan.eq_def]; simp [isGap]

theorem scan_single (hc : c ≠ '\x27') : scan .single b (c :: s) = scan .single (push b c) s := by
  rw [scan.eq_def]
  simp [hc]

theorem scan_double (hc : c ∉ ['\x22', '\\']) (ho : IsOrdinary c) :
    scan (.double open?) b (c :: s) = scan (.double true) (push b c) s := by
  have hdollar : c ≠ '$' := by
    rintro rfl
    cases ho.1
  simp only [mem_cons, not_mem_nil, or_false, not_or] at hc
  rw [scan.eq_def]
  simp [hc, hdollar]

theorem scan_double_escape (w : Option Text) (d : Char) :
    scan (.double open?) (w.map plain) ('\\' :: d :: s) =
      scan (.double false) ((some (w.getD [] ++ doubleEscape.adds d)).map plain) s := by
  rw [scan.eq_def]
  have hpush : push (some (plain (w.getD [] ++ ['\\']))) d =
      some (plain (w.getD [] ++ ['\\'] ++ [d])) := rfl
  by_cases hd : d = '\x22' ∨ d = '\\' <;> simp [hd, adds, push_plain, hpush]

theorem scan_close : scan .single b ('\x27' :: s) = scan .plain b s ∧
    scan (.double open?) b ('\x22' :: s) = scan .plain b s := by
  constructor <;> · rw [scan.eq_def]; simp

end Scan

theorem scan_end (place : Place) (w : Option Text) :
    scan place (w.map plain) [] = outcome place w [] := by
  cases w with
  | none => rcases place with _ | _ | _ | _ <;> rfl
  | some t =>
    by_cases ht : t = []
    · subst ht
      rcases place with _ | _ | _ | _ <;> rfl
    · rcases place with _ | _ | _ | _ <;>
        simp [scan, outcome, mayEnd, found, Quoting.read, quoting, Word.plain, ht]

/-- **A scan follows the rules of quoting.** In quotes a word is begun. -/
theorem scan_read (place : Place) (w : Option Text) (hw : place ≠ .plain → ∃ t, w = some t)
    (hs : ∀ c ∈ s, IsOrdinary c) : scan place (w.map plain) s = outcome place w s := by
  -- an escape takes two characters at once
  induction hn : s.length using Nat.strongRecOn generalizing place w s with
  | _ n ih =>
    have next (s' place t) (hlt : s'.length < s.length) (hsub : ∀ c ∈ s', c ∈ s) :
        scan place ((some t).map plain) s' = outcome place (some t) s' :=
      ih _ (hn ▸ hlt) place _ (fun _ => ⟨t, rfl⟩) (fun c hc => hs c (hsub c hc)) rfl
    rcases s with _ | ⟨c, s⟩
    · exact scan_end place w
    have hc : IsOrdinary c := hs c mem_cons_self
    have hnext (place t) := next s place t (Nat.lt_succ_self _) fun _ => mem_cons_of_mem _
    cases place with
    | plain =>
      by_cases hblank : c = ' ' ∨ c = '\t'
      · have hnone := ih s.length (hn ▸ Nat.lt_succ_self _) .plain none (absurd rfl)
          (fun c hc => hs c (mem_cons_of_mem _ hc)) rfl
        have hhead : s.head? ≠ some '#' := fun h =>
          absurd (hs '#' (mem_cons_of_mem _ (mem_of_mem_head? h))).2 (by decide)
        rw [outcome_blank hblank hhead, scan_blank hblank, ← hnone]
        cases w <;> rfl
      by_cases hsingle : c = '\x27'
      · subst hsingle
        rw [outcome_step .plain .single rfl (by decide) (by decide) rfl, scan_quote.1, begin_plain]
        exact hnext ..
      by_cases hdouble : c = '\x22'
      · subst hdouble
        rw [outcome_step .plain (.double true) rfl (by decide) (by decide) rfl,
          scan_quote.2, begin_plain]
        exact hnext ..
      by_cases hslash : c = '\\'
      · subst hslash
        cases s with
        | nil =>
          rw [(scan_last true).1, push_plain, scan_end]
          exact outcome_congr rfl
            (by simp [Quoting.read, Quoting.step, stepWord, quoting, Quoting.adds])
        | cons d s =>
          rw [(outcome_escape w d s).1, scan_escape, push_plain]
          exact next s _ _ (Nat.lt_succ_of_lt (Nat.lt_succ_self _)) fun _ h =>
            mem_cons_of_mem _ (mem_cons_of_mem _ h)
      · have hhash : c ≠ '#' := fun h => hc.2 (by simp [h])
        have hnewline : c ≠ '\n' := fun h => hc.2 (by simp [h])
        rw [outcome_step .plain .plain (t := [c]) (by simp_all [quoting, step, stepWord])
          (by decide)
          (fun _ => not_or.1 hblank) (by simp [quoting, adds, *]), scan_plain (by simp_all) hc,
          push_plain]
        exact hnext ..
    | single =>
      obtain ⟨t, rfl⟩ := hw (by simp)
      by_cases hclose : c = '\x27'
      · subst hclose
        rw [outcome_step .single .plain (t := []) rfl (by decide) (by simp [quoting]) rfl,
          (scan_close true).1,
          ← hnext]
        simp
      · rw [outcome_step .single .single (t := [c]) (by simp [quoting, step, hclose])
          (by decide) (by simp [quoting])
          (by simp [quoting, adds, hclose]), scan_single hclose, push_plain]
        exact hnext ..
    | double open? =>
      obtain ⟨t, rfl⟩ := hw (by simp)
      by_cases hclose : c = '\x22'
      · subst hclose
        rw [outcome_step (.double open?) .plain (t := []) rfl (by decide) (by simp [quoting]) rfl,
          (scan_close open?).2, ← hnext]
        simp
      by_cases hslash : c = '\\'
      · subst hslash
        cases s with
        | nil => exact (scan_last open?).2
        | cons d s =>
          rw [(outcome_escape _ d s).2, scan_double_escape]
          exact next s _ _ (Nat.lt_succ_of_lt (Nat.lt_succ_self _)) fun _ h =>
            mem_cons_of_mem _ (mem_cons_of_mem _ h)
      · rw [outcome_step (.double open?) (.double true) (t := [c])
          (by simp [quoting, step, hclose, hslash]) (by decide) (by simp [quoting])
          (by simp [quoting, adds, hclose, hslash]),
          scan_double open? (by simp [hclose, hslash]) hc, push_plain]
        exact hnext ..

theorem joinLines_of_ordinary (hs : ∀ c ∈ s, IsOrdinary c) : joinLines s = s := by
  fun_induction joinLines s with
  | case1 rest ih => exact absurd (hs '\n' (by simp)).2 (by simp)
  | case2 c rest _ ih => rw [ih fun c hc => hs c (mem_cons_of_mem _ hc)]
  | case3 => rfl

/-! ## Splitting a line -/

/-- Where a line may end, no quote is left open, or the last character is escaped in double
quotes. -/
theorem mayEnd_iff (hline : line.head? ≠ some '#') :
    plain.mayEnd line = true ↔ ¬ EndsOpen line ∨ EndsEscaped line := by
  cases line with
  | nil => simp [mayEnd, EndsOpen, Quoting.after, Quoting.isOpen]
  | cons c s =>
    rw [EndsOpen, EndsEscaped, after_dropLast_start hline, after_start hline (cons_ne_nil c s)]
    simp [mayEnd, quoting]

theorem found_eq : found (start.read none line) =
    (if EndsEmpty line then (wordsOf line).dropLast else wordsOf line).map plain := by
  by_cases h : EndsEmpty line
  · rw [if_pos h, found, wordsOf, show (start.read none line).2 = some [] from h]
    simp
  · rw [if_neg h, found, wordsOf]
    cases hlast : (start.read none line).2 with
    | none => simp
    | some t =>
      have ht : t ≠ [] := fun ht => h (hlast.trans (congrArg some ht))
      simp [ht]

/-- **Splitting agrees with quoting but for the end of a line.** A line is split into its words,
without the last one if that is empty and nothing follows it. A quote left open is an error, unless
the line ends with an escape in double quotes: then it is split as if a closing quote followed. -/
theorem split_quoting (fs : Files) (here line cwd : Text) (hline : ∀ c ∈ line, IsOrdinary c)
    (hfirst : ∀ w ∈ (wordsOf line).head?, '=' ∉ w) :
    split fs here line cwd =
      if EndsOpen line ∧ ¬ EndsEscaped line then .error .openQuote
      else .ok (.argv (if EndsEmpty line then (wordsOf line).dropLast else wordsOf line)) := by
  have hwords : words line = outcome .plain none line := by
    rw [words, joinLines_of_ordinary hline]
    exact scan_read .plain none (absurd rfl) hline
  have hhash : line.head? ≠ some '#' := fun h =>
    absurd (hline '#' (mem_of_mem_head? h)).2 (by decide)
  have hend := mayEnd_iff line hhash
  by_cases h : EndsOpen line ∧ ¬ EndsEscaped line
  · have hnot : plain.mayEnd line = false := by simpa [h] using hend
    rw [if_pos h, split, hwords, outcome, hnot]
    rfl
  · have hyes : plain.mayEnd line = true := hend.2 (by tauto)
    rw [outcome, hyes, if_pos rfl, show plain.quoting = .word from rfl, ← read_start hhash,
      found_eq] at hwords
    rw [if_neg h]
    generalize hws : (if EndsEmpty line then (wordsOf line).dropLast else wordsOf line) =
      ws at hwords ⊢
    have hhead : ∀ w ∈ ws.head?, '=' ∉ w := by
      subst hws
      split
      · intro w hw
        rw [head?_dropLast] at hw
        split at hw
        · exact hfirst w hw
        · cases hw
      · exact hfirst
    have htexts : ws = (ws.map Word.plain).map Word.text := by simp [Word.plain, Function.comp_def]
    rw [htexts]
    exact split_of_words hwords (by simp [Word.plain]) (by simpa [Word.plain] using hhead)

/-- Quotes and escapes of all kinds, and an empty word in the middle. -/
theorem split_quoting_pieces :
    (∀ c ∈ "c 'a b'\"\\\"\\d\" \"\" e\\ ".toList, IsOrdinary c) ∧
    wordsOf "c 'a b'\"\\\"\\d\" \"\" e\\ " = ["c".toList, "a b\"\\d".toList, [], "e ".toList] ∧
    split ⟨[], .ofInt 0, .ofInt 0⟩ "/w" "c 'a b'\"\\\"\\d\" \"\" e\\ " "/w" =
      .ok (.argv ["c", "a b\"\\d", [], "e "]) := by
  have hline : ∀ c ∈ "c 'a b'\"\\\"\\d\" \"\" e\\ ".toList, IsOrdinary c := by decide
  exact ⟨hline, by decide, split_quoting ⟨[], .ofInt 0, .ofInt 0⟩ "/w" _ "/w" hline (by decide)⟩

/-- **Two ends of lines that are not split by the rules of quoting**: an empty word is lost, and
double quotes are left open. -/
theorem split_not_quoting :
    (wordsOf "c ''" = ["c".toList, []] ∧ split ⟨[], .ofInt 0, .ofInt 0⟩ "/w" "c ''" "/w" =
      .ok (.argv ["c"])) ∧
    (EndsOpen "c \"\\d" ∧ split ⟨[], .ofInt 0, .ofInt 0⟩ "/w" "c \"\\d" "/w" =
      .ok (.argv ["c", "\\d"])) := by
  have hempty : words "c ''" = .ok [⟨"c", false⟩] := by decide
  have hopen : words "c \"\\d" = .ok [⟨"c", false⟩, ⟨"\\d", false⟩] := by decide
  exact ⟨⟨by decide, split_of_words hempty (by decide) (by decide)⟩,
    by decide, split_of_words hopen (by decide) (by decide)⟩

end CommandLine

end Rebuild
