import Rebuild.CommandLine
import Rebuild.Function
import Rebuild.Makefile.Basic
import Rebuild.Statement.Parser
/-!
# Evaluation of expansions

The value of an expansion in a scope. Evaluation follows the expansion itself; where it goes on
to the value of a variable or to statements, it uses what is given for one level less
(`Below`), so that every level is a structural recursion. The names whose values are being
evaluated are kept in a list, and a name that comes up again is an error.
-/

namespace Rebuild

/-- Where names are looked up: local names first, then a chain of tables. -/
structure Scope where
  /-- Local names with their texts, the innermost first. -/
  locals : List (Text × Text)
  outer : List ScopeName

namespace Scope

/-- The scope outside of all targets. -/
def global : Scope := ⟨[], [.global]⟩

/-- The scope of a target. -/
def ofTarget (name : Text) : Scope := ⟨[], [.target name, .global]⟩

/-- The binding of a name, to be read. -/
def lookup (sc : Scope) (name : Text) : MakeM (Option Binding) :=
  match sc.locals.lookup name with
  | some v =>
    return some ⟨.simple, .automatic, .ofWord v ("Expansion of variable '" ++ name ++ ['\x27'])⟩
  | none => MakeM.onScopes (ScopeM.lookup sc.outer name)

/-- The binding of a name with its value as a text. -/
def raw? (sc : Scope) (name : Text) : MakeM (Option (Flavor × Origin × Text)) := do
  match sc.locals.lookup name with
  | some v => return some (.simple, .automatic, v)
  | none => return (← MakeM.makefile).scopes.raw? sc.outer name

/-- Add a local name, unless a name of a lower rank is kept. -/
def define (sc : Scope) (name value : Text) : MakeM Scope := do
  let old ← sc.lookup name
  if ← MakeM.onScopes (ScopeM.mayReplace name old .automatic false) then
    return { sc with locals := (name, value) :: sc.locals }
  else return sc

end Scope

/-- Evaluation and execution one level down. -/
structure Below where
  /-- The value of an expansion, given the names being evaluated. -/
  expand : Scope → List Text → Expansion → MakeM Text
  /-- Carry out statements; weak ones come from a file of dependencies. -/
  execute : Bool → List Statement → MakeM Unit

namespace Evaluate

open MakeM

/-- A name must not be evaluated inside its own value. -/
def guardSelf (setting : List Text) (name : Text) (loc : Option Location) : MakeM Unit :=
  if setting.contains name then throw (.refused (.selfReference name) loc) else pure ()

/-- The value of a variable's expansion; text needs no level. -/
def valueOf (b : Below) (sc : Scope) (setting : List Text) : Expansion → MakeM Text
  | .literal s _ => return s
  | e => b.expand sc setting e

/-- The binding of a name; that there is none is remarked. -/
def bindingOf (sc : Scope) (name : Text) (loc : Option Location) : MakeM (Option Binding) := do
  let found ← sc.lookup name
  if found.isNone then
    log .debug (Location.optionText loc ++ ": variable '" ++ name ++ "' was not set")
  return found

/-- The output of a command as a text on one line. -/
def oneLine (out : Text) : Text :=
  let out := out.replace "\r\n" "\n"
  let out : Text := if out.getLast? == some '\n' then out.dropLast else out
  out.replaceChar '\n' ' '

/-- What a command prints, on one line. -/
def shell (line : Text) (loc : Option Location) : MakeM Text := do
  let mk ← makefile
  let launch ← act (CommandLine.prepare line mk.workdir loc)
  if !(← world).environ.has "PATH" then throw (.breach .key)
  log .debug (Location.optionText loc ++ ": running command '" ++ Text.unwords launch.argv ++ "'")
  let (w, r) := (← world).spawn launch.argv launch.executable mk.env mk.workdir true
  onWorld fun _ => w
  match r with
  | .ok (_, out) => return oneLine out
  | .error (.file f path) =>
    onWorld (·.printErr ("Error executing command " ++ launch.argv.headD [] ++ [' ']
      ++ f.message path))
    return []
  | .error e => throw e

/-- The functions that ask the file system about the words of a text. -/
def ofFiles (f : Builtin) (s : Text) : MakeM Text := do
  let mk ← makefile
  let w ← world
  match f with
  | .wildcard =>
    let found ← s.words.mapM fun p =>
      match Glob.expand w.files w.cwd mk.workdir p with
      | .ok xs => pure xs
      | .error e => throw (.file e p)
    return Text.unwords (found.flatten.map (·.replaceChar '\\' '/'))
  | .realpath =>
    return Text.unwords (s.words.map fun p =>
      (Path.real w.cwd (Path.join mk.workdir p)).replaceChar '\\' '/')
  | _ =>
    return Text.unwords (s.words.map fun p => (Path.joinShort mk.workdir p).replaceChar '\\' '/')

/-- The functions of one name or text that look at the makefile or tell something. -/
def ofText (b : Below) (sc : Scope) (loc : Option Location) (f : Builtin) (s : Text) :
    MakeM Text := do
  match f with
  | .value => return ((← sc.raw? s).map (·.2.2)).getD []
  | .origin => return ((← sc.lookup s).map (·.origin.name)).getD "undefined"
  | .flavor =>
    return ((← sc.lookup s).map fun v => match v.flavor with
      | .simple => ("simple" : Text)
      | _ => "recursive").getD "undefined"
  | .eval =>
    let stmts ← reading (Statement.parse s ("evaluation from " ++ Location.optionText loc))
    b.execute false stmts
    return []
  | .shell => shell s loc
  | .error => throw (.refused (.raised s) loc)
  | .warning =>
    log .warning s
    return []
  | .info =>
    onWorld (·.print s)
    return []
  | f => ofFiles f s

mutual

/-- The value of an expansion. -/
def expansion (b : Below) (sc : Scope) (setting : List Text) : Expansion → MakeM Text
  | .literal s _ => return s
  | .sequence xs _ => items b sc setting xs

/-- The values of items, joined. -/
def items (b : Below) (sc : Scope) (setting : List Text) : List Item → MakeM Text
  | [] => return []
  | .text s :: rest => return s ++ (← items b sc setting rest)
  | .ref r :: rest => do
    let s ← reference b sc setting r
    return s ++ (← items b sc setting rest)

/-- The value of a reference. -/
def reference (b : Below) (sc : Scope) (setting : List Text) : Reference → MakeM Text
  | .variable loc n => do
    let name ← expansion b sc setting n
    guardSelf setting name loc
    match ← bindingOf sc name loc with
    | none => return []
    | some v => valueOf b sc (setting ++ [name]) v.value
  | .substitution loc n p r => do
    let name ← expansion b sc setting n
    guardSelf setting name loc
    let old ← expansion b sc setting p
    let new ← expansion b sc setting r
    match ← bindingOf sc name loc with
    | none => return []
    | some v =>
      let (p, r) ← ofExcept (Function.suffixPattern old new)
      let s ← valueOf b sc (setting ++ [name]) v.value
      return Text.unwords (← ofExcept (Function.patsubst p r s.words))
  | .call loc f args =>
    match f.textual? with
    | some g => textual b sc setting g [] args
    | none => special b sc setting loc f args

/-- The value of a function of texts; `early` holds the texts of the arguments evaluated. -/
def textual (b : Below) (sc : Scope) (setting : List Text)
    (g : List Text → Except Error (Text → Except Error Text)) (early : List Text) :
    List Expansion → MakeM Text
  | [] => throw (.breach .index)
  | [last] => do
    let h ← ofExcept (g early)
    let s ← expansion b sc setting last
    ofExcept (h s)
  | a :: rest => do
    let s ← expansion b sc setting a
    textual b sc setting g (early ++ [s]) rest

/-- The value of a function that is not one of texts. -/
def special (b : Below) (sc : Scope) (setting : List Text) (loc : Option Location) (f : Builtin) :
    List Expansion → MakeM Text
  | [] => throw (.breach .index)
  | a :: rest => do
    match f with
    | .cond =>
      let s ← expansion b sc setting a
      if s.isEmpty then otherwise b sc setting rest else chosen b sc setting rest
    | .or =>
      let s ← expansion b sc setting a
      if s.isEmpty then firstText b sc setting rest else return s
    | .and =>
      let s ← expansion b sc setting a
      if s.isEmpty then return [] else lastText b sc setting s rest
    | .foreach =>
      let name ← expansion b sc setting a
      foreach b sc setting name rest
    | .call =>
      let name ← expansion b sc setting a
      if setting.contains name then throw (.refused (.selfCall name) none)
      let inner ← sc.define ['0'] name
      let inner ← parameters b sc setting inner 1 rest
      match ← sc.lookup name with
      | none => return []
      | some v =>
        if v.flavor == .simple then
          log .warning (Location.optionText loc ++ ": calling variable '" ++ name
            ++ "' which is simply-expanded")
        valueOf b inner (setting ++ [name]) v.value
    | f =>
      if f == .eval && (← makefile).finished then throw (.refused .evalAfterParsing loc)
      let s ← expansion b sc setting a
      ofText b sc loc f s

/-- The value of the first argument. -/
def chosen (b : Below) (sc : Scope) (setting : List Text) : List Expansion → MakeM Text
  | [] => throw (.breach .index)
  | a :: _ => expansion b sc setting a

/-- The value of the second argument, if there is one. -/
def otherwise (b : Below) (sc : Scope) (setting : List Text) : List Expansion → MakeM Text
  | _ :: a :: _ => expansion b sc setting a
  | _ => return []

/-- The first value that is not empty. -/
def firstText (b : Below) (sc : Scope) (setting : List Text) : List Expansion → MakeM Text
  | [] => return []
  | a :: rest => do
    let s ← expansion b sc setting a
    if s.isEmpty then firstText b sc setting rest else return s

/-- The last value if none is empty; `value` is the one so far. -/
def lastText (b : Below) (sc : Scope) (setting : List Text) (value : Text) :
    List Expansion → MakeM Text
  | [] => return value
  | a :: rest => do
    let s ← expansion b sc setting a
    if s.isEmpty then return [] else lastText b sc setting s rest

/-- The values of the second expansion, with a local name for each word of the first. -/
def foreach (b : Below) (sc : Scope) (setting : List Text) (name : Text) :
    List Expansion → MakeM Text
  | list :: body :: _ => do
    let ws := (← expansion b sc setting list).words
    if !ws.isEmpty then discard (sc.lookup name)
    let values ← ws.mapM fun w =>
      expansion b { sc with locals := (name, w) :: sc.locals } setting body
    return Text.unwords values
  | _ => throw (.breach .index)

/-- Bind the arguments of a call to their numbers. -/
def parameters (b : Below) (sc : Scope) (setting : List Text) (inner : Scope) (i : Nat) :
    List Expansion → MakeM Scope
  | [] => return inner
  | a :: rest => do
    let s ← expansion b sc setting a
    let inner ← inner.define (Text.ofNat i) s
    parameters b sc setting inner (i + 1) rest

end

end Evaluate

end Rebuild
