import Rebuild.Main
import Rebuild.Proofs.Applicability
import Rebuild.Proofs.Build.Activity
import Rebuild.Proofs.Build.DryRun
import Rebuild.Proofs.Build.InTurn
import Rebuild.Proofs.Cache
import Rebuild.Proofs.Expansion.RoundTrip
import Rebuild.Proofs.Function
import Rebuild.Proofs.Glob
import Rebuild.Proofs.Makefile.Directories
import Rebuild.Proofs.Makefile.Levels
import Rebuild.Proofs.Quoting
import Rebuild.Proofs.Recipe
import Rebuild.Proofs.Statement.Assignment
import Rebuild.Proofs.Statement.Definition
import Rebuild.Proofs.Words
import Rebuild.Statement.Walk
import Rebuild.Tools
