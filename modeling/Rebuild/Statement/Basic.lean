import Rebuild.Expansion.Basic
import Rebuild.Variable.Basic
/-!
# Statements

A makefile is a list of statements. A recipe line is a statement of its own, which belongs to
the rule before it. Conditional directives become one block of groups, each a condition with
the statements under it.
-/

namespace Rebuild

/-- The condition of a block. -/
inductive Condition where
  /-- Two expansions have the same value, or have not if `expected` is false. -/
  | equal (loc : Location) (left right : Expansion) (expected : Bool)
  /-- A variable has a value that is not empty, or has not. -/
  | defined (loc : Location) (name : Expansion) (expected : Bool)
  /-- Always true. -/
  | otherwise (loc : Location)
deriving Repr

/-- Where a condition stands. -/
def Condition.loc : Condition → Location
  | .equal l .. => l
  | .defined l .. => l
  | .otherwise l => l

/-- An assignment as it is written. -/
structure Assignment where
  name : Expansion
  mark : AssignMark
  value : Text
  valueLoc : Location
  targets : Option Expansion
  origin : Origin
deriving Repr

mutual

/-- A statement of a makefile. -/
inductive Statement where
  | rule (targets deps : Expansion) (doubleColon : Bool)
  | staticRule (targets pattern deps : Expansion) (doubleColon : Bool)
  | command (exp : Expansion)
  | assign (a : Assignment)
  | block (loc : Location) (groups : List Group) (endLoc : Location)
  | includes (exp : Expansion) (required weak : Bool)
  | vpath (exp : Expansion)
  /-- An export; `assigned` tells that the next statement came from the same line. -/
  | exports (exp : Expansion) (assigned : Bool)
  | unexports (exp : Expansion)
  | empty (exp : Expansion)

/-- Statements under a condition. -/
inductive Group where
  | mk (condition : Condition) (body : List Statement)

end

deriving instance Repr for Statement, Group

instance : Inhabited Statement := ⟨.empty default⟩

namespace Group

/-- The condition of a group. -/
def condition : Group → Condition
  | .mk c _ => c

/-- The statements of a group. -/
def body : Group → List Statement
  | .mk _ b => b

end Group

end Rebuild
