import Rebuild.Expansion.Same
import Rebuild.Statement.Basic
/-!
# Comparing statements

Statements are the same when they are of one kind and their parts are the same; locations do
not count, nor whether an include is weak, nor whether an export came with an assignment.
-/

namespace Rebuild

/-- Both comparisons, the second only if the first holds. -/
def bothSame (a : Except Error Bool) (b : Unit → Except Error Bool) : Except Error Bool := do
  if ← a then b () else return false

namespace Condition

/-- Are two conditions the same but for locations? -/
def same : Condition → Condition → Except Error Bool
  | .equal _ l r e, .equal _ l' r' e' =>
    bothSame (l.same l') fun _ => bothSame (r.same r') fun _ => .ok (e == e')
  | .defined _ n e, .defined _ n' e' => bothSame (n.same n') fun _ => .ok (e == e')
  | .otherwise _, .otherwise _ => .ok true
  | _, _ => .ok false

end Condition

/-- Are two assignments the same but for locations? -/
def Assignment.same (a b : Assignment) : Except Error Bool :=
  bothSame (a.name.same b.name) fun _ =>
    if a.mark == b.mark && a.value == b.value then
      bothSame (match a.targets, b.targets with
        | some s, some t => s.same t
        | none, none => .ok true
        | _, _ => .ok false) fun _ => .ok (a.origin == b.origin)
    else .ok false

namespace Statement

mutual

/-- Are two statements the same but for locations? -/
def same : Statement → Statement → Except Error Bool
  | .rule t d dc, .rule t' d' dc' =>
    bothSame (t.same t') fun _ => bothSame (d.same d') fun _ => .ok (dc == dc')
  | .staticRule t p d dc, .staticRule t' p' d' dc' =>
    bothSame (t.same t') fun _ => bothSame (p.same p') fun _ =>
      bothSame (d.same d') fun _ => .ok (dc == dc')
  | .command e, .command e' => e.same e'
  | .assign a, .assign a' => a.same a'
  | .block _ gs _, .block _ gs' _ =>
    if gs.length == gs'.length then sameGroups gs gs' else .ok false
  | .includes e r _, .includes e' r' _ => bothSame (e.same e') fun _ => .ok (r == r')
  | .vpath e, .vpath e' => e.same e'
  | .exports e _, .exports e' _ => e.same e'
  | .unexports e, .unexports e' => e.same e'
  | .empty e, .empty e' => e.same e'
  | _, _ => .ok false

/-- Are two lists of groups the same, as far as both go? -/
def sameGroups : List Group → List Group → Except Error Bool
  | .mk c b :: gs, .mk c' b' :: gs' => do
    if ← c.same c' then
      if b.length == b'.length then
        if ← sameAll b b' then sameGroups gs gs' else return false
      else return false
    else return false
  | _, _ => .ok true

/-- Are two lists of statements the same, as far as both go? -/
def sameAll : List Statement → List Statement → Except Error Bool
  | s :: ss, s' :: ss' => do
    if ← s.same s' then sameAll ss ss' else return false
  | _, _ => .ok true

end

/-- Are two makefiles the same but for locations? -/
def sameList (a b : List Statement) : Except Error Bool :=
  if a.length == b.length then sameAll a b else .ok false

end Statement

end Rebuild
