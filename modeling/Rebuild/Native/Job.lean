import Rebuild.CommandLine
import Rebuild.Native.Basic
/-!
# Jobs

A job is what a recipe line starts: a process, or a native command. It runs to its end in its
directory and environment and leaves an exit code; what it has to say goes to standard error.
-/

namespace Rebuild

namespace Native

/-- A native command of the program itself: it acts on the world and gives a value or fails. -/
abbrev Command := ExceptT Failure (StateM World) Value

/-- Failures of a command as the job reports them. -/
def ofWorld (x : WorldM Unit) : Command := fun w =>
  match x w with
  | (.ok (), w) => (.ok .nothing, w)
  | (.error e, w) => (.error (failure e), w)
where
  failure : Error → Failure
    | .native m code => ⟨m, code⟩
    | .breach .shape => .broken "Tuple or struct_time argument required"
    | e => .broken e.message

/-- The command of a name, if there is one. -/
def builtin? (name : Text) (cwd : Text) (args : List Text) : Option Command :=
  if name == "mkdir" then some (ofWorld (mkdir cwd args))
  else if name == "rm" then some (ofWorld (rm cwd args))
  else if name == "touch" then some (ofWorld (touch cwd args))
  else if name == "sleep" then some (ofWorld (sleep args))
  else none

/-- What a command does that is outside of the program. -/
def ofEnding (e : Ending) : Command := fun w =>
  (e.result, e.printed.foldl World.print { w with files := e.files })

/-- The command of a library, if there are such a library and such a command. -/
def command? (library name : Text) (cwd : Text) (env : Env) (args : List Text) (w : World) :
    Option (Option Command) :=
  if library == "pymake.builtins" then some (builtin? name cwd args)
  else (w.outside.native w.trace ⟨library :: name :: args, env, cwd⟩ w.files).map
    (·.map ofEnding)

end Native

/-- What a recipe line starts. -/
inductive Job where
  | process (launch : CommandLine.Launch) (env : Env) (cwd : Text)
  /-- A command of a library; `path` holds directories to search for it. -/
  | native (library name : Text) (args : List Text) (env : Env) (cwd : Text) (path : List Text)
deriving Repr

namespace Job

/-- The exit code in the status of a process that ended; a signal counts as negative. -/
def codeOfStatus (status : Int) : Int :=
  let signal := status % 256
  if signal == 0 then status / 256 else -signal

/-- The exit code of a command that cannot be run. -/
def failed : Int := -127

/-- Run a native command and give its exit code. -/
def runNative (library name : Text) (args : List Text) (env : Env) (cwd : Text) (path : List Text)
    (w : World) : World × Int :=
  let w := w.note (.native (library :: name :: args) cwd env)
  match w.files.stat w.cwd cwd with
  | .error e => (w.printErr (e.message cwd), failed)
  | .ok (.file ..) => (w.printErr (FileFault.notDirectory.message cwd), failed)
  | .ok (.dir _) =>
    let w := path.foldl (fun w p => w.note (.siteDir p)) w
    match Native.command? library name cwd env args w with
    | none =>
      (w.printErr ("Error importing " ++ library ++ ": No module named " ++ Text.quoted library),
        failed)
    | some none =>
      (w.printErr ("No method named '" ++ name ++ "' in module " ++ library), failed)
    | some (some command) =>
      let returned (v : Text) (w : World) : World :=
        w.printErr
          ("Native command '" ++ library ++ [' '] ++ name ++ "' returned value '" ++ v ++ ['\x27'])
      match command w with
      | (.error f, w) => (w.printErr f.message, f.code)
      | (.ok .nothing, w) => (w, 0)
      | (.ok (.int n), w) => if n == 0 then (w, 0) else (returned (Text.ofInt n) w, n)
      | (.ok (.text s), w) => (returned s w, 1)

/-- Run a process: its exit code. Without a search path in the environment of the program, or
without words, it breaks before it can end, and nobody learns of that. -/
def runProcess (launch : CommandLine.Launch) (env : Env) (cwd : Text) (w : World) :
    World × Option Int :=
  if w.environ.has "PATH" then
    match w.spawn launch.argv launch.executable env cwd false with
    | (w, .ok (code, _)) => (w, some code)
    | (w, .error (.file f path)) => (w.printErr (f.message path), some failed)
    | (w, .error _) => (w, none)
  else (w, none)

/-- Run a job: its exit code, if it ends. -/
def run (j : Job) (w : World) : World × Option Int :=
  match j with
  | .process launch env cwd => runProcess launch env cwd w
  | .native library name args env cwd path =>
    let (w, code) := runNative library name args env cwd path w
    (w, some code)

end Job

end Rebuild
