import Rebuild.Expansion.Source
import Rebuild.Statement.Basic
/-!
# Statements as text

`source` writes statements as makefile text. Some conditions cannot be written: a test for a
variable whose name is computed, and an equality that would need both kinds of quotes.
`listing` shows the structure of statements, one or more lines each; an export has none.
-/

namespace Rebuild

namespace Statement

/-- The value of an assignment with its hash signs quoted; a backslash before a hash sign is
quoted too. `slash` tells that a backslash stands before the text. -/
def escapeValue (slash : Bool) : Text → Text
  | [] => []
  | c :: rest =>
    if c == '#' then (if slash then ['\\', '\\', '#'] else ['\\', '#']) ++ escapeValue false rest
    else c :: escapeValue (c == '\\') rest

/-- An assignment as makefile text: a definition if the value has several lines or begins with
a blank. -/
def assignmentSource (a : Assignment) : Text :=
  let value := escapeValue false a.value
  let name := a.name.source false false
  match a.targets with
  | some t => t.source false false ++ ": " ++ name ++ " " ++ a.mark.text ++ " " ++ value
  | none =>
    let lead : Text := if a.origin == .override then "override " else []
    if value.contains '\n' || (value.head?.map Text.isBlank).getD false then
      lead ++ "define " ++ name ++ "\n" ++ value ++ "\nendef"
    else lead ++ name ++ " " ++ a.mark.text ++ " " ++ value

/-- Is there a blank at one of the ends? -/
def blankEnded (s : Text) : Bool :=
  (s.head?.map Text.isBlank).getD false || (s.getLast?.map Text.isBlank).getD false

/-- The two sides of an equality as makefile text: in parentheses, or in quotes if a side begins
or ends with a blank. -/
def sidesSource (left right : Text) : Except Error Text :=
  let edged := [left, right].filter blankEnded
  let single := edged.any (·.contains '\x27')
  let double := edged.any (·.contains '\x22')
  if single && double then .error .manyQuotes
  else if edged.isEmpty then .ok (['('] ++ left ++ [','] ++ right ++ [')'])
  else
    let q := if single then '\x22' else '\x27'
    .ok ([q] ++ left ++ [q, ' ', q] ++ right ++ [q])

/-- The word before a condition that is not the first of its block. -/
def elseWord (later : Bool) : Text := if later then "else " else []

/-- A condition as makefile text; `later` tells that it is not the first of its block. -/
def conditionSource (later : Bool) : Condition → Except Error Text
  | .otherwise _ => .ok "else"
  | .defined _ (.literal s _) expected =>
    .ok (elseWord later ++ (if expected then "ifdef " else "ifndef ") ++ s)
  | .defined _ (.sequence _ _) _ => .error (.breach .part)
  | .equal _ l r expected => do
    let body ← sidesSource (l.source false true) (r.source false true)
    return elseWord later ++ (if expected then "ifeq " else "ifneq ") ++ body

/-- The colon of a rule. -/
def colon (doubleColon : Bool) : Text := if doubleColon then [':', ':'] else [':']

/-- A text after a colon: a space is put between unless the text is empty or `p` holds of its
first character. -/
def spaced (p : Char → Bool) (s : Text) : Text :=
  match s with
  | [] => []
  | c :: _ => if p c then s else ' ' :: s

mutual

/-- A statement as it is written. -/
def source : Statement → Except Error Text
  | .rule t deps dc =>
    .ok (['\n'] ++ t.source true false ++ colon dc
      ++ spaced Text.isBlank (deps.source false false))
  | .staticRule t p deps dc =>
    .ok (['\n'] ++ t.source true false ++ colon dc
      ++ spaced (fun c => c == ' ' || c == '\t') (p.source false false)
      ++ [':'] ++ deps.source false false)
  | .command e =>
    .ok (Text.join ['\n'] (((e.source true false).splitOn '\n').map ('\t' :: ·)))
  | .assign a => .ok (assignmentSource a)
  | .block _ groups _ => do
    let lines ← sourceGroups false groups
    return Text.join ['\n'] (lines ++ [("endif" : Text)])
  | .includes e required _ =>
    .ok ((if required then "include " else "-include ") ++ e.source false false)
  | .vpath e => .ok ("vpath " ++ e.source false false)
  | .exports e _ => .ok (Text.trimRight ("export " ++ e.source false false))
  | .unexports e => .ok ("unexport " ++ e.source false false)
  | .empty e => .ok (e.source false false)

/-- Groups as they are written. -/
def sourceGroups (later : Bool) : List Group → Except Error (List Text)
  | [] => .ok []
  | .mk c body :: rest => do
    let c ← conditionSource later c
    let body ← sourceAll body
    let rest ← sourceGroups true rest
    return c :: body ++ rest

/-- Statements as they are written. -/
def sourceAll : List Statement → Except Error (List Text)
  | [] => .ok []
  | s :: rest => do
    let s ← s.source
    let rest ← sourceAll rest
    return s :: rest

end

/-- A makefile as it is written. -/
def sourceText (ss : List Statement) : Except Error Text := do
  return Text.join ['\n'] (← sourceAll ss)

/-- A truth value as it is shown. -/
def boolText (b : Bool) : Text := if b then "True" else "False"

/-- A condition as it is shown. -/
def conditionListing : Condition → Text
  | .equal _ l r expected =>
    "ifeq (expected=" ++ boolText expected ++ ") " ++ l.listing ++ " " ++ r.listing
  | .defined _ n expected => "ifdef (expected=" ++ boolText expected ++ ") " ++ n.listing
  | .otherwise _ => "else"

mutual

/-- A statement as it is shown. -/
def listing (indent : Text) : Statement → Except Error (List Text)
  | .rule t deps _ => .ok [indent ++ "Rule " ++ t.listing ++ ": " ++ deps.listing]
  | .staticRule t p deps _ =>
    .ok [indent ++ "StaticPatternRule " ++ t.listing ++ ": " ++ p.listing ++ ": " ++ deps.listing]
  | .command e => .ok [indent ++ "Command " ++ e.listing]
  | .assign a =>
    .ok [indent ++ "SetVariable<" ++ a.valueLoc.text ++ "> " ++ a.name.listing ++ " "
        ++ a.mark.text,
      indent ++ " " ++ Text.quoted a.value]
  | .block _ groups _ => do
    let lines ← listingGroups indent groups
    return [indent ++ "ConditionBlock"] ++ lines ++ [indent ++ "~ConditionBlock"]
  | .includes e _ _ => .ok [indent ++ "Include " ++ e.listing]
  | .vpath e => .ok [indent ++ "VPath " ++ e.listing]
  | .exports _ _ => .error (.breach .part)
  | .unexports e => .ok [indent ++ "Unexport " ++ e.listing]
  | .empty e => .ok [indent ++ "EmptyDirective: " ++ e.listing]

/-- Groups as they are shown. -/
def listingGroups (indent : Text) : List Group → Except Error (List Text)
  | [] => .ok []
  | .mk c body :: rest => do
    let body ← listingAll (indent ++ "  ") body
    let rest ← listingGroups indent rest
    return [indent ++ " Condition " ++ conditionListing c] ++ body
      ++ [indent ++ " ~Condition"] ++ rest

/-- Statements as they are shown. -/
def listingAll (indent : Text) : List Statement → Except Error (List Text)
  | [] => .ok []
  | s :: rest => do
    let s ← s.listing indent
    let rest ← listingAll indent rest
    return s ++ rest

end

/-- A makefile as it is shown. -/
def listingText (ss : List Statement) : Except Error Text := do
  return (← listingAll [] ss).flatMap (· ++ ['\n'])

end Statement

end Rebuild
