import Rebuild.Expansion.Basic
/-!
# The references inside an expansion

An enumeration lists members until it is done or until it meets something that it cannot look
into: plain text has no parts. Whoever wants all members fails then; whoever only looks for one
may have found it before.
-/

namespace Rebuild

/-- A part of a reference: an expansion, or the text inside one. -/
inductive Part where
  | expansion (e : Expansion)
  | text (s : Text)

/-- Members listed in order, and whether the listing then broke off. -/
structure Listing (α : Type) where
  members : List α
  broken : Bool

namespace Listing

/-- The listing of nothing. -/
def empty {α : Type} : Listing α := ⟨[], false⟩

/-- A listing that breaks off at once. -/
def fault {α : Type} : Listing α := ⟨[], true⟩

/-- One listing after the other, which counts only if the first is whole. -/
def append {α : Type} (a b : Listing α) : Listing α :=
  if a.broken then a else ⟨a.members ++ b.members, b.broken⟩

/-- Listings one after another. -/
def concat {α : Type} (xs : List (Listing α)) : Listing α := xs.foldr append empty

/-- All members; a listing that broke off has not all. -/
def all {α : Type} (a : Listing α) : Except Error (List α) :=
  if a.broken then .error (.breach .part) else .ok a.members

/-- Is there a member with a property? A listing that breaks off before has no answer. -/
def any {α : Type} (a : Listing α) (p : α → Bool) : Except Error Bool :=
  if a.members.any p then .ok true
  else if a.broken then .error (.breach .part)
  else .ok false

end Listing

/-- The expansions inside a reference. -/
def Reference.args : Reference → List Expansion
  | .variable _ n => [n]
  | .substitution _ n p r => [n, p, r]
  | .call _ _ as => as

mutual

/-- The parts of a reference at every depth: each expansion followed by what is in it. -/
def Reference.parts : Reference → List Part
  | .variable _ n => .expansion n :: partsInside n
  | .substitution _ n p r =>
    .expansion n :: partsInside n ++ (.expansion p :: partsInside p)
      ++ (.expansion r :: partsInside r)
  | .call _ _ args => partsArgs args

/-- The parts inside an expansion. -/
def partsInside : Expansion → List Part
  | .literal _ _ => []
  | .sequence xs _ => partsItems xs

/-- The parts of items. -/
def partsItems : List Item → List Part
  | [] => []
  | .text s :: rest => .text s :: partsItems rest
  | .ref r :: rest => r.parts ++ partsItems rest

/-- The parts of arguments. -/
def partsArgs : List Expansion → List Part
  | [] => []
  | e :: rest => .expansion e :: partsInside e ++ partsArgs rest

end

namespace Expansion

/-- The references of an expansion itself. -/
def references : Expansion → List Reference
  | .literal _ _ => []
  | .sequence xs _ => xs.filterMap fun
    | .text _ => none
    | .ref r => some r

/-- The references at every depth, to at most `n`: each followed by the references in each of
its parts. -/
def allReferencesTo : Nat → Expansion → Listing Reference
  | _, .literal _ _ => .empty
  | 0, .sequence _ _ => .fault
  | n + 1, .sequence xs _ =>
    Listing.concat (xs.map fun
      | .text _ => .fault
      | .ref r =>
        Listing.append ⟨[r], false⟩ (Listing.concat (r.parts.map fun
          | .text _ => .fault
          | .expansion e => allReferencesTo n e)))

/-- The references of an expansion, and those inside them. -/
def allReferences (e : Expansion) : Listing Reference := allReferencesTo (e.depth + 1) e

/-- The references to variables. -/
def variablesAmong (rs : List Reference) : List Reference :=
  rs.filter fun
    | .variable _ _ => true
    | _ => false

/-- Does the value depend on the files? -/
def readsFiles (e : Expansion) : Except Error Bool :=
  e.allReferences.any fun
    | .call _ f _ => f.readsFiles
    | _ => false

/-- Does the value depend on a command? -/
def runsShell (e : Expansion) : Except Error Bool :=
  e.allReferences.any fun
    | .call _ f _ => f == .shell
    | _ => false

end Expansion

end Rebuild
