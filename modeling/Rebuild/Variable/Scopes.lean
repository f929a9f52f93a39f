import Rebuild.Expansion.Parser
import Rebuild.Expansion.Source
import Rebuild.Pattern
import Rebuild.Variable.Basic
/-!
# Scopes of variables

Variables live in tables: one for the whole makefile, one for each target and one for each
pattern of targets. A lookup goes through a chain of tables from the inside out. A variable that
was appended to without being set in its own table continues the value of the next table.

A value is read as an expansion when it is first needed; what the reader has to remark is said
that one time.
-/

namespace Rebuild

/-- A variable in a table. -/
structure Entry where
  name : Text
  flavor : Flavor
  origin : Origin
  value : Text
  isRead : Bool
deriving DecidableEq, Repr

/-- Variables in the order in which they were first set. -/
abbrev Table := List Entry

namespace Table

/-- The entry of a name. -/
def get? (t : Table) (name : Text) : Option Entry := t.find? (·.name == name)

/-- Set a variable; it keeps its place in the order. -/
def put (t : Table) (e : Entry) : Table :=
  if (t.get? e.name).isSome then t.map fun x => if x.name == e.name then e else x
  else t ++ [e]

end Table

/-- What a table belongs to. -/
inductive ScopeName where
  | global
  | target (name : Text)
  | pattern (p : Pattern)
deriving DecidableEq, Repr

/-- All tables. -/
abbrev Scopes := List (ScopeName × Table)

namespace Scopes

/-- A table; one that was never used is empty. -/
def table (s : Scopes) (k : ScopeName) : Table := (s.lookup k).getD []

/-- Replace a table. -/
def setTable (s : Scopes) (k : ScopeName) (t : Table) : Scopes :=
  if s.any (·.1 == k) then s.map fun p => if p.1 == k then (k, t) else p else s ++ [(k, t)]

/-- Put an entry into a table. -/
def put (s : Scopes) (k : ScopeName) (e : Entry) : Scopes := s.setTable k ((s.table k).put e)

/-- Flavour, origin and text of a variable, without reading it. -/
def raw? (s : Scopes) : List ScopeName → Text → Option (Flavor × Origin × Text)
  | [], _ => none
  | k :: rest, name =>
    match (s.table k).get? name with
    | none => raw? s rest name
    | some e =>
      if e.flavor == .append then
        match raw? s rest name with
        | none => some (.recursive, e.origin, e.value)
        | some (f, o, v) =>
          if o.rank < e.origin.rank then some (f, o, v) else some (f, o, v ++ [' '] ++ e.value)
      else some (e.flavor, e.origin, e.value)

end Scopes

/-- A variable with its value read. -/
structure Binding where
  flavor : Flavor
  origin : Origin
  value : Expansion
deriving Repr

/-- Something to say about variables. -/
inductive Remark where
  /-- The reader's remark about a value. -/
  | reading (n : Notice)
  /-- A variable keeps its value because an origin of lower rank set it. -/
  | kept (name : Text) (value : Expansion)
deriving Repr

/-- Work on tables: it may fail, and what was done and said before stays. -/
abbrev ScopeM := ExceptT Error (StateM (Scopes × List Remark))

namespace ScopeM

/-- The tables. -/
def scopes : ScopeM Scopes := return (← get).1

/-- Change the tables. -/
def update (f : Scopes → Scopes) : ScopeM Unit := modify fun s => (f s.1, s.2)

/-- Add a remark. -/
def remark (r : Remark) : ScopeM Unit := modify fun s => (s.1, s.2 ++ [r])

/-- Where the text of a variable stands. -/
def place (name : Text) : Text := "Expansion of variables '" ++ name ++ "':1:0"

/-- Read the value of a variable. -/
def readText (name value : Text) : ScopeM Expansion := do
  let (outcome, notices) := (Expansion.parseText value (place name)).outcome
  notices.forM fun n => remark (.reading n)
  ofExcept outcome

/-- Read a variable of a table; only the first reading is remarked on. -/
def readEntry (k : ScopeName) (e : Entry) : ScopeM Expansion := do
  if e.isRead then
    ofExcept (Expansion.parseText e.value (place e.name)).outcome.1
  else
    let exp ← readText e.name e.value
    update (·.put k { e with isRead := true })
    return exp

/-- The value of the outer table followed by what was appended. -/
def joined (outer added : Expansion) : Expansion :=
  match outer.clone with
  | .sequence xs l => .sequence (xs ++ [.text [' ']] ++ added.items) l
  | e => e

/-- The variable of a name, in the first table that has it. -/
def lookup : List ScopeName → Text → ScopeM (Option Binding)
  | [], _ => return none
  | k :: rest, name => do
    match ((← scopes).table k).get? name with
    | none => lookup rest name
    | some e =>
      match e.flavor with
      | .simple =>
        return some ⟨.simple, e.origin,
          .ofWord e.value ("Expansion of variable '" ++ name ++ ['\x27'])⟩
      | .recursive => return some ⟨.recursive, e.origin, ← readEntry k e⟩
      | .append =>
        let added ← readEntry k e
        match ← lookup rest name with
        | none => return some ⟨.recursive, e.origin, added⟩
        | some outer =>
          if outer.origin.rank < e.origin.rank then return some outer
          else return some { outer with value := joined outer.value added }

/-- May a variable be set, given what it was? One of a lower rank is kept, unless `force`. -/
def mayReplace (name : Text) (old : Option Binding) (origin : Origin) (force : Bool) :
    ScopeM Bool := do
  match old with
  | some b =>
    if b.origin.rank < origin.rank && !force then
      remark (.kept name b.value)
      return false
    else return true
  | none => return true

/-- Set a variable in the innermost table of a chain. The old value is read first, and an
appending variable cannot be set. -/
def set (k : ScopeName) (outer : List ScopeName) (name : Text) (flavor : Flavor) (origin : Origin)
    (value : Text) (force : Bool) : ScopeM Unit := do
  if flavor == .append then throw (.breach .assertion)
  let old ← lookup (k :: outer) name
  if ← mayReplace name old origin force then
    update (·.put k ⟨name, flavor, origin, value, false⟩)

/-- Set the variables of a table in another one. -/
def merge (k : ScopeName) (outer : List ScopeName) (t : Table) : ScopeM Unit :=
  t.forM fun e => set k outer e.name e.flavor e.origin e.value false

/-- Set the variables of an environment. -/
def setEnv (k : ScopeName) (outer : List ScopeName) (env : List (Text × Text)) : ScopeM Unit :=
  env.forM fun p => set k outer p.1 .recursive .environment p.2 false

/-- What an append needs before it is done. -/
inductive Append where
  | done
  /-- The value of the expansion, to be put after the old text of a simple variable. -/
  | evaluate (old : Entry) (exp : Expansion)

/-- Append to a variable of a table. A value of lower rank than the variable is ignored. -/
def append (k : ScopeName) (name : Text) (origin : Origin) (value : Text) : ScopeM Append := do
  if !([.override, .makefile, .automatic] : List Origin).contains origin then
    throw (.breach .assertion)
  match ((← scopes).table k).get? name with
  | none =>
    update (·.put k ⟨name, .append, origin, value, false⟩)
    return .done
  | some e =>
    if e.origin.rank < origin.rank then return .done
    else if e.flavor == .simple then return .evaluate e (← readText name value)
    else
      update (·.put k { e with value := e.value ++ [' '] ++ value, isRead := false })
      return .done

/-- Append to a value. -/
def appendValue (k : ScopeName) (old : Entry) (value : Text) : ScopeM Unit :=
  update (·.put k { old with value := old.value ++ [' '] ++ value, isRead := false })

end ScopeM

end Rebuild
