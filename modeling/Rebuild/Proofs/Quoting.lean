import Mathlib.Data.List.Basic
import Rebuild.Pattern
/-!
# Backslashes in patterns

By the rule only backslashes directly before a percent sign count: each two of them stand for one,
and one that is left over quotes the sign. All others are left alone. The reader finds the same
operative sign, but halves the other runs of backslashes before it, too; so it keeps to the rule
only where these are short (`Pattern.parse_by_rule`).
-/

namespace Rebuild

open List Text

namespace Pattern

/-- The pattern of a text after `before` and `n` backslashes, if `left k` are left of `k`
backslashes that do not stand before a percent sign. The operative sign is the first one after an
even number of them. -/
def readBy (left : Nat → Nat) (before : Text) (n : Nat) : Text → Pattern
  | [] => .exact (before ++ copies (left n) '\\')
  | c :: s =>
    if c = '\\' then readBy left before (n + 1) s
    else if c ≠ '%' then readBy left (before ++ copies (left n) '\\' ++ [c]) 0 s
    else if n % 2 = 0 then .stem (before ++ copies (n / 2) '\\') s
    else readBy left (before ++ copies (n / 2) '\\' ++ ['%']) 0 s

/-- The pattern that a text denotes by the rule. -/
def ruled (s : Text) : Pattern := readBy id [] 0 s

/-- Each backslash that is left took the next one with it. -/
def half (n : Nat) : Nat := (n + 1) / 2

/-- The text has no operative sign and ends in an odd number of backslashes, the last of which
quotes nothing. -/
def dangles (n : Nat) : Text → Bool
  | [] => n % 2 == 1
  | c :: s => if c = '\\' then dangles (n + 1) s else !(c == '%' && n % 2 == 0) && dangles 0 s

/-- Up to the operative sign, backslashes stand alone or before percent signs, and not at the
end. -/
def tidy (n : Nat) : Text → Bool
  | [] => n == 0
  | c :: s =>
    if c = '\\' then tidy (n + 1) s
    else if c = '%' then n % 2 == 0 || tidy 0 s else decide (n ≤ 1) && tidy 0 s

variable {before before' s : Text} {n k : Nat} {c : Char}

theorem copies_append_cons (n : Nat) (s : Text) :
    copies n '\\' ++ '\\' :: s = copies (n + 1) '\\' ++ s := by
  rw [copies, copies, replicate_succ', append_assoc]
  rfl

/-- Backslashes are read in pairs. -/
theorem parseFrom_pairs (before s : Text) (k : Nat) :
    parseFrom before.reverse (copies (2 * k) '\\' ++ s) = parseFrom
      (before ++ copies k '\\').reverse s := by
  induction k generalizing before with
  | zero => simp [copies]
  | succ k ih =>
    have h := ih (before ++ ['\\'])
    rw [reverse_append] at h
    refine h.trans ?_
    rw [append_assoc, copies, copies, replicate_succ]
    rfl

theorem parseFrom_of_ne (h1 : c ≠ '\\') (h2 : c ≠ '%') (before s : Text) :
    parseFrom before (c :: s) = parseFrom (c :: before) s := by
  rw [parseFrom]
  all_goals simp [h1, h2]

theorem parseFrom_slash (h1 : c ≠ '\\') (h2 : c ≠ '%') (before s : Text) :
    parseFrom before ('\\' :: c :: s) = parseFrom ('\\' :: before) (c :: s) := by
  rw [parseFrom]
  all_goals simp [h1, h2]

/-- The reader halves every run of backslashes before the operative sign. -/
theorem parseFrom_eq (before s : Text) (n : Nat) :
    parseFrom before.reverse (copies n '\\' ++ s) =
      if dangles n s then .error (.breach .index) else .ok (readBy half before n s) := by
  -- On the text; the run of backslashes before it is read in pairs, and one may be left over.
  induction s generalizing n before with
  | nil =>
    obtain ⟨k, rfl | rfl⟩ : ∃ k, n = 2 * k ∨ n = 2 * k + 1 := ⟨n / 2, by omega⟩
    · rw [parseFrom_pairs]
      simp [parseFrom, dangles, readBy, half, show (2 * k + 1) / 2 = k by omega]
    · rw [← copies_append_cons, parseFrom_pairs]
      simp [parseFrom, dangles]
  | cons c s ih =>
    have hnext (before : Text) := ih before 0
    by_cases hc : c = '\\'
    · rw [hc, copies_append_cons, ih]
      simp [dangles, readBy]
    obtain ⟨k, rfl | rfl⟩ : ∃ k, n = 2 * k ∨ n = 2 * k + 1 := ⟨n / 2, by omega⟩
    · rw [parseFrom_pairs]
      by_cases hp : c = '%'
      · subst hp
        simp [parseFrom, dangles, readBy]
      · rw [parseFrom_of_ne hc hp, ← reverse_concat]
        refine (hnext _).trans ?_
        simp [dangles, readBy, half, hc, hp, show (2 * k + 1) / 2 = k by omega]
    · rw [← copies_append_cons, parseFrom_pairs]
      by_cases hp : c = '%'
      · subst hp
        rw [parseFrom, ← reverse_concat]
        refine (hnext _).trans ?_
        simp [dangles, readBy, show (2 * k + 1) / 2 = k by omega]
      · rw [parseFrom_slash hc hp, parseFrom_of_ne hc hp, ← reverse_concat, ← reverse_concat,
          append_assoc before]
        refine (hnext _).trans ?_
        simp [dangles, readBy, half, hc, hp, show (2 * k + 1 + 1) / 2 = k + 1 by omega, copies,
          replicate_succ']

theorem not_dangles_of_tidy (h : tidy n s = true) : dangles n s = false := by
  induction s generalizing n with
  | nil => simp_all [tidy, dangles]
  | cons c s ih =>
    unfold tidy at h
    unfold dangles
    split
    · exact ih (by simp_all)
    · rename_i hc
      rw [if_neg hc] at h
      by_cases hp : c = '%' <;> by_cases hn : n % 2 = 0 <;> simp_all

/-- What stands before some backslashes can be told if it is no longer than what it is compared
with. -/
theorem append_copies_inj (hb : before.length ≤ before'.length) (hk : k ≤ n) :
    before ++ copies k '\\' = before' ++ copies n '\\' ↔ before = before' ∧ k = n := by
  constructor
  · intro h
    have hlength := congrArg length h
    simp only [copies, length_append, length_replicate] at hlength
    exact ⟨(append_inj h (by omega)).1, by omega⟩
  · rintro ⟨rfl, rfl⟩
    rfl

theorem half_le (n : Nat) : half n ≤ n := by
  unfold half
  omega

/-- Runs are only ever shortened, so a run that lost a backslash shows in the end. -/
theorem readBy_half_eq_iff (hb : before.length ≤ before'.length) (hd : dangles n s = false) :
    readBy half before n s = readBy id before' n s ↔ before = before' ∧ tidy n s = true := by
  induction s generalizing before before' n with
  | nil =>
    have hn : half n = n ↔ n = 0 := by
      simp only [dangles, beq_eq_false_iff_ne] at hd
      unfold half
      omega
    simp [readBy, tidy, append_copies_inj hb (half_le n), hn]
  | cons c s ih =>
    unfold readBy tidy
    unfold dangles at hd
    by_cases hc : c = '\\'
    · simp only [hc, if_true] at hd ⊢
      exact ih hb hd
    by_cases hp : c = '%'
    · subst hp
      by_cases hn : n % 2 = 0
      · simp [hn]
      · have h :=
          @ih (before ++ copies (n / 2) '\\' ++ ['%']) (before' ++ copies (n / 2) '\\' ++ ['%']) 0
          (by simpa using hb) (by simpa [hn] using hd)
        simpa [hn] using h
    · have hle := half_le n
      have h := @ih (before ++ copies (half n) '\\' ++ [c]) (before' ++ copies n '\\' ++ [c]) 0
        (by simp [copies]; omega) (by simpa [hc, hp] using hd)
      have hn : half n = n ↔ n ≤ 1 := by
        unfold half
        omega
      rw [append_left_inj, append_copies_inj hb hle, hn, and_assoc] at h
      simpa [hc, hp] using h

theorem parse_eq (s : Text) :
    parse s = if dangles 0 s then .error (.breach .index) else .ok (readBy half [] 0 s) :=
  parseFrom_eq [] s 0

/-- **Backslashes are read by the rule where they are single or before a percent sign.** The reader
gives the pattern of the rule if and only if, up to the operative sign, every backslash stands alone
or in a run before a percent sign, and none at the end of the text. It halves longer runs before
other characters or the end, and fails if no sign is operative and an odd number of backslashes ends
the text. -/
theorem parse_by_rule (s : Text) :
    (parse s = .ok (ruled s) ↔ tidy 0 s = true) ∧
    parse s = if dangles 0 s then .error (.breach .index) else .ok (readBy half [] 0 s) := by
  refine ⟨?_, parse_eq s⟩
  rw [parse_eq, ruled]
  cases hd : dangles 0 s with
  | true =>
    constructor
    · intro h
      cases h
    · intro h
      cases hd.symm.trans (not_dangles_of_tidy h)
  | false =>
    have h := readBy_half_eq_iff (Nat.le_refl ([] : Text).length) hd
    simpa using h

example : parse "the\\%weird\\\\%pattern\\\\" = .ok (.stem "the%weird\\" "pattern\\\\") := by
  decide +kernel

/-- Two backslashes that quote nothing become one, and a backslash at the end is an error. -/
theorem slashes_not_left_alone :
    parse "a\\\\b" = .ok (.exact "a\\b") ∧ ruled "a\\\\b" = .exact "a\\\\b" ∧
      parse "a\\" = .error (.breach .index) ∧ ruled "a\\" = .exact "a\\" := by
  decide +kernel

end Pattern

end Rebuild
