import Rebuild.Statement.Basic
/-!
# Walking statements

A walk lists statements in order. It cannot enter a conditional block: it lists the block and
ends there.
-/

namespace Rebuild

namespace Statement

/-- The statements that a walk lists, and whether it ended at a block. -/
def walk : List Statement → List Statement × Bool
  | [] => ([], false)
  | .block loc groups endLoc :: _ => ([.block loc groups endLoc], true)
  | s :: rest => let p := walk rest; (s :: p.1, p.2)

end Statement

end Rebuild
