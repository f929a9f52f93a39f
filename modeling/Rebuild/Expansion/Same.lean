import Rebuild.Expansion.Basic
/-!
# Comparing expansions

Two expansions are compared by their normal forms, without regard to locations and to blanks
before the first argument of a call. The comparison walks as far as the left side was long
before it was brought into normal form, so it can run past the end, and it is not symmetric: a
literal is never the same as a sequence, though a sequence of texts can be the same as a
literal.
-/

namespace Rebuild

namespace Expansion

/-- Compare two lists member by member for `n` steps; running past the end is an error. -/
def sameSteps (same : Item → Item → Except Error Bool) :
    Nat → List Item → List Item → Except Error Bool
  | 0, _, _ => .ok true
  | n + 1, a :: as, b :: bs => do
    if ← same a b then sameSteps same n as bs else return false
  | _ + 1, _, _ => .error (.breach .index)

/-- Are two lists of arguments the same, as far as both go? -/
def sameArgs (same : Expansion → Expansion → Except Error Bool) :
    List Expansion → List Expansion → Except Error Bool
  | a :: as, b :: bs => do
    if ← same a b then sameArgs same as bs else return false
  | _, _ => .ok true

/-- Compare the arguments of two calls; blanks before the first ones do not count. -/
def sameCall (same : Expansion → Expansion → Except Error Bool)
    (as bs : List Expansion) : Except Error Bool :=
  if as.length != bs.length then .ok false
  else match as, bs with
    | a :: as, b :: bs => do
      let a ← a.trimLeft?
      let b ← b.trimLeft?
      sameArgs same (a :: as) (b :: bs)
    | _, _ => .ok true

/-- Are two references the same but for their locations? -/
def sameRef (same : Expansion → Expansion → Except Error Bool) :
    Reference → Reference → Except Error Bool
  | .variable _ n, .variable _ n' => same n n'
  | .substitution _ n p r, .substitution _ n' p' r' =>
    sameArgs same [n, p, r] [n', p', r']
  | .call _ f as, .call _ g bs => if f = g then sameCall same as bs else .ok false
  | _, _ => .ok false

/-- Are two items the same? -/
def sameItem (same : Expansion → Expansion → Except Error Bool) :
    Item → Item → Except Error Bool
  | .text s, .text t => .ok (s == t)
  | .ref r, .ref r' => sameRef same r r'
  | _, _ => .ok false

/-- Compare two expansions whose references are nested at most `n` deep. -/
def sameTo : Nat → Expansion → Expansion → Except Error Bool
  | _, .literal s _, .literal t _ => .ok (s == t)
  | _, .literal _ _, .sequence _ _ => .ok false
  | n, .sequence xs l, e =>
    match (sequence xs l).finish, e.finish with
    | .literal s _, .literal t _ => .ok (s == t)
    | .sequence _ _, .literal _ _ => .ok false
    | .literal _ _, .sequence ys _ => .ok (xs.isEmpty && ys.length == 1)
    | .sequence ys _, .sequence zs _ =>
      if ys.length != zs.length then .ok false
      else match n with
        | 0 => .error (.breach .depth)
        | n + 1 => sameSteps (sameItem (sameTo n)) xs.length ys zs

/-- Are two expansions the same but for their locations? -/
def same (a b : Expansion) : Except Error Bool := sameTo a.depth a b

end Expansion

end Rebuild
