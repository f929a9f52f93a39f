import Rebuild.Expansion.Basic
import Rebuild.Pattern
/-!
# Rules

A rule has prerequisites and a recipe and may belong to several targets. A pattern rule has
patterns in their place; fitted to a stem it gives the prerequisites of a target. A rule with a
double colon stands alone; a pattern rule with a double colon is terminal, that is its
prerequisites are not made by other pattern rules.
-/

namespace Rebuild

/-- A rule for targets given by name. -/
structure Rule where
  prereqs : List Text
  doubleColon : Bool
  loc : Option Location
  /-- The prerequisites need not be made; one that cannot be made makes the target out of date. -/
  weak : Bool
  commands : List Expansion
deriving Repr

/-- A rule for targets that fit a pattern. -/
structure PatternRule where
  targets : List Pattern
  prereqs : List Pattern
  doubleColon : Bool
  loc : Option Location
  commands : List Expansion
deriving Repr

/-- How a pattern fits a target. -/
structure Fit where
  /-- The directory that the stem leaves out. -/
  dir : Text
  stem : Text
  /-- The pattern fits everything. -/
  any : Bool
deriving DecidableEq, Repr

namespace PatternRule

/-- The prerequisites of a fitted rule. -/
def prereqsFor (r : PatternRule) (f : Fit) : List Text :=
  r.prereqs.map fun p => p.resolve f.dir f.stem

/-- Does a rule fit everything? -/
def matchesAny (r : PatternRule) : Bool := r.targets.any (·.matchesAny)

/-- Does a pattern that does not match everything match a file name? -/
def isSpecific (r : PatternRule) (file : Text) : Bool :=
  r.targets.any fun p => !p.matchesAny && (p.match? file).isSome

/-- How a pattern fits a target, given by directory and file name: as a whole if it can, else by
its file name. -/
def fitOf (p : Pattern) (dir file : Text) : Option Fit :=
  match p.match? (dir ++ file), p.match? file with
  | some stem, _ => some ⟨[], stem, false⟩
  | none, some stem => some ⟨dir, stem, false⟩
  | none, none => none

/-- The ways in which the patterns fit a target; with `skipAny`, patterns that match everything
count only in terminal rules. -/
def fits (r : PatternRule) (dir file : Text) (skipAny : Bool) : List Fit :=
  r.targets.filterMap fun p =>
    if p.matchesAny then
      if skipAny && !r.doubleColon then none else some ⟨dir, file, true⟩
    else fitOf p dir file

/-- A truth value as it is shown. -/
def truthText (b : Bool) : Text := if b then "True" else "False"

/-- A fitted rule as it is shown. -/
def listing (r : PatternRule) (f : Fit) : Text :=
  "Pattern rule at " ++ Location.optionText r.loc ++ " with stem '" ++ f.dir ++ f.stem
    ++ "', matchany: " ++ truthText f.any ++ " doublecolon: " ++ truthText r.doubleColon

end PatternRule

end Rebuild
