import Rebuild.Proofs.Line.Pieces
import Rebuild.Proofs.Text
import Rebuild.Recipe
/-!
# The lines of a recipe

A recipe is cut at its newlines, but for those that a backslash quotes: read from the left, a
backslash makes a pair with the character after it. The lines are what stands between the cuts, and
with newlines between them they are the recipe again, less a cut at its end (`split_lossless`).
-/

namespace Rebuild

open List

namespace Recipe

variable {s start : Text} {c : Char} {i j n : Nat}

/-- The offsets of the newlines that are not the second character of a pair, in a text at offset
`i`. -/
def cutsFrom (i : Nat) : Text → List Nat
  | [] => []
  | '\\' :: _ :: s => cutsFrom (i + 2) s
  | '\n' :: s => i :: cutsFrom (i + 1) s
  | _ :: s => cutsFrom (i + 1) s

/-- The offsets at which a recipe is cut. -/
def cuts (s : Text) : List Nat := cutsFrom 0 s

/-- Where lines end that stand from offset `i` on, with a newline after each. -/
def endsFrom (i : Nat) : List Text → List Nat
  | [] => []
  | p :: ps => (i + p.length) :: endsFrom (i + p.length + 1) ps

theorem cutsFrom_single (hpair : ∀ d t, c = '\\' → s = d :: t → False) (hnewline : c ≠ '\n') :
    cutsFrom i (c :: s) = cutsFrom (i + 1) s := by
  rw [cutsFrom]
  · exact hpair
  · exact hnewline

theorem le_of_mem_cutsFrom (h : j ∈ cutsFrom i s) : i ≤ j := by
  fun_induction cutsFrom i s <;> grind

/-- The cuts are the newlines after an even number of backslashes. -/
theorem mem_cutsFrom (hj : j = i + n) :
    j ∈ cutsFrom i s ↔ s[n]? = some '\n' ∧ Line.oddAfter false (s.take n) = false := by
  fun_induction cutsFrom i s generalizing n with
  | case1 => simp
  | case2 i c s ih =>
    have hlt : j < i + 2 → j ∉ cutsFrom (i + 2) s := fun h hmem => by
      have := le_of_mem_cutsFrom hmem
      omega
    rcases n with _ | _ | n
    · simpa using hlt (by omega)
    · simpa [Line.oddAfter] using hlt (by omega)
    · simpa [Line.oddAfter] using ih (by omega)
  | case3 i s ih =>
    cases n with
    | zero => simp [Line.oddAfter, hj]
    | succ n =>
      have hne : j ≠ i := by omega
      simpa [Line.oddAfter, hne] using ih (n := n) (by omega)
  | case4 i c s hpair hnewline ih =>
    cases n with
    | zero =>
      have hnot : j ∉ cutsFrom (i + 1) s := fun hmem => by have := le_of_mem_cutsFrom hmem; omega
      simpa [hnot] using fun h => (hnewline h).elim
    | succ n =>
      rw [ih (n := n) (by omega)]
      -- a backslash by itself ends the text
      cases s with
      | nil => simp
      | cons d s =>
        have hc : (c == '\\') = false := by simpa using fun h => hpair d s h rfl
        simp [Line.oddAfter, hc]

theorem splitFrom_ne_nil (h : start ≠ [] ∨ s ≠ []) : splitFrom start s ≠ [] := by
  fun_induction splitFrom start s <;> simp_all

/-- **With newlines between them, and one after them if the text ends in a cut, the lines are the
text.** -/
theorem join_splitFrom (start : Text) (hn : n + 1 = i + s.length) :
    Text.join ['\n'] (splitFrom start s) ++ (if n ∈ cutsFrom i s then ['\n'] else []) =
    start.reverse ++ s := by
  fun_induction splitFrom start s generalizing i with
  | case1 start h => simp_all [cutsFrom, Text.join]
  | case2 start h => simp [cutsFrom, Text.join]
  | case3 start c rest ih => simpa [cutsFrom] using ih (i := i + 2) (by grind)
  | case4 start rest ih =>
    cases rest with
    | nil =>
      have hni : n = i := by simpa using hn
      simp [splitFrom, Text.join, cutsFrom, hni]
    | cons c rest =>
      have hne : n ≠ i := by grind
      rw [Text.join_cons _ _ (splitFrom_ne_nil (.inr (cons_ne_nil c rest)))]
      simpa [cutsFrom, hne] using ih (i := i + 1) (by grind)
  | case5 start c rest hpair hnewline ih =>
    simpa [cutsFrom_single hpair hnewline] using ih (i := i + 1) (by grind)

/-- **The lines end at the cuts**, but for a last one that ends with the text. -/
theorem ends_splitFrom (hj : j = i + start.length) (hn : n = j + s.length) :
    (endsFrom i (splitFrom start s)).filter (· < n) = cutsFrom j s := by
  fun_induction splitFrom start s generalizing i j with
  | case1 start h => rfl
  | case2 start h => simp_all [endsFrom, cutsFrom]
  | case3 start c rest ih => exact ih (by grind) (by grind)
  | case4 start rest ih =>
    rw [endsFrom, filter_cons_of_pos (by grind), cutsFrom, ih (j := j + 1) (by grind) (by grind),
      hj, length_reverse]
  | case5 start c rest hpair hnewline ih =>
    rw [cutsFrom_single hpair hnewline]
    exact ih (by grind) (by grind)

/-- No line has a cut in it, if the line begun has none and ends no pair early. -/
theorem cutsFrom_of_mem {p : Text}
    (hstart : ∀ i t, cutsFrom i (start.reverse ++ t) = cutsFrom (i + start.length) t)
    (hp : p ∈ splitFrom start s) : cutsFrom i p = [] := by
  fun_induction splitFrom start s with
  | case1 => cases hp
  | case2 start h => simpa [mem_singleton.1 hp, cutsFrom] using hstart i []
  | case3 start c rest ih =>
    refine ih (fun j t => ?_) hp
    simpa [cutsFrom, Nat.add_assoc] using hstart j ('\\' :: c :: t)
  | case4 start rest ih =>
    rcases mem_cons.1 hp with rfl | hp
    · simpa [cutsFrom] using hstart i []
    · exact ih (by simp) hp
  | case5 start c rest hpair hnewline ih =>
    cases rest with
    | nil =>
      rw [mem_singleton.1 hp, reverse_cons, hstart, cutsFrom_single hpair hnewline, cutsFrom]
    | cons d rest =>
      refine ih (fun j t => ?_) hp
      rw [reverse_cons, append_assoc, singleton_append, hstart,
        cutsFrom_single (fun _ _ hc _ => hpair d rest hc rfl) hnewline, length_cons, Nat.add_assoc]

/-- **A recipe is cut into its lines without loss.** The cuts are the newlines after an even number
of backslashes. With newlines between them the lines are the text, without a cut at its end; they
end at the cuts, and the last one where the text does; and none has a cut in it. -/
theorem split_lossless (s : Text) :
    (∀ i, i ∈ cuts s ↔ s[i]? = some '\n' ∧ Line.slashesAtEnd (s.take i) % 2 = 0) ∧
      Text.join ['\n'] (split s) = (if s.length - 1 ∈ cuts s then s.dropLast else s) ∧
      (endsFrom 0 (split s)).filter (· < s.length) = cuts s ∧ ∀ p ∈ split s, cuts p = [] := by
  refine ⟨fun i => ?_, ?_, ?_, fun p hp => cutsFrom_of_mem (by simp) hp⟩
  · rw [cuts, mem_cutsFrom (Nat.zero_add i).symm, Line.oddAfter_eq_false_iff]
  · rcases s.eq_nil_or_concat with rfl | ⟨t, c, rfl⟩
    · rfl
    rw [concat_eq_append]
    have h := join_splitFrom [] (i := 0) (n := t.length) (s := t ++ [c]) (by simp)
    change Text.join _ (split _) ++ (if _ ∈ cuts _ then _ else _) = _ at h
    rw [length_append, length_singleton, Nat.add_sub_cancel]
    split at h <;> simp_all
  · exact ends_splitFrom rfl (Nat.zero_add _).symm

end Recipe

end Rebuild
