import Rebuild.Build.Run
import Rebuild.Statement.Source
/-!
# Tools for makefiles

Two small programs besides make itself: one shows how makefiles are read, the other writes a
makefile out again from what was read.
-/

namespace Rebuild

namespace Tools

/-- The statements of a file. -/
def readStatements (path : Text) : WorldM (List Statement) := do
  let w ← getThe World
  match w.files.read w.cwd path with
  | .error e => throw (.file e path)
  | .ok s =>
    let (r, notices) := (Statement.parse s path).outcome
    modify fun w => notices.foldl (fun w n => w.log .warning .parser n.message) w
    ofExcept r

/-- Print the statements of files. -/
def showFiles (paths : List Text) : WorldM Unit :=
  paths.forM fun p => do
    modify (·.print ("Parsing " ++ p))
    let stmts ← readStatements p
    let listing ← ofExcept (Statement.listingText stmts)
    modify (·.print listing)

/-- Write a makefile out again; there must be one. -/
def formatFile (paths : List Text) : WorldM Unit := do
  match paths with
  | [] => throw (.breach .index)
  | p :: _ =>
    let stmts ← readStatements p
    let source ← ofExcept (Statement.sourceText stmts)
    modify (·.print source)

end Tools

end Rebuild
