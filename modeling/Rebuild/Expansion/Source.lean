import Rebuild.Expansion.Basic
/-!
# Expansions as text

`source` writes an expansion as makefile text; `listing` writes it with its structure and
locations shown.
-/

namespace Rebuild

/-- The variables that are written without parentheses. -/
def automaticNames : List Text := [['@'], ['%'], ['<'], ['?'], ['^'], ['+'], ['|'], ['*']]

/-- Double the dollar signs. -/
def escapeDollars (s : Text) : Text :=
  s.flatMap fun c => if c == '$' then ['$', '$'] else [c]

/-- Every hash sign after a backslash of its own. -/
def escapeHashes (s : Text) : Text :=
  s.flatMap fun c => if c == '#' then ['\\', '#'] else [c]

/-- The source of a call, from the sources of its arguments: in curly braces if parentheses are
not balanced in number in some argument. -/
def callSource (name : Text) (args : List Text) : Text :=
  let args := match args with
    | [] => []
    | a :: rest => Text.trimLeft a :: rest
  let b : Brace := if args.any fun a => a.count '(' != a.count ')' then .curly else .round
  ['$', b.opening] ++ name ++ [' '] ++ Text.join [','] args ++ [b.closing]

/-- A reference to a variable, as it is written. -/
def variableSource (name : Text) : Text :=
  if automaticNames.contains name then '$' :: name else ['$', '('] ++ name ++ [')']

mutual

/-- The expansion as makefile text. `dollars` doubles the dollar signs of plain text, `hashes`
quotes the hash signs of a literal. -/
def Expansion.source (dollars hashes : Bool) : Expansion → Text
  | .literal s _ =>
    let s := if hashes then escapeHashes s else s
    if dollars then escapeDollars s else s
  | .sequence xs _ => sourceItems dollars xs

/-- The source of items. -/
def sourceItems (dollars : Bool) : List Item → Text
  | [] => []
  | .text s :: rest => (if dollars then escapeDollars s else s) ++ sourceItems dollars rest
  | .ref r :: rest => r.source ++ sourceItems dollars rest

/-- The source of a reference. -/
def Reference.source : Reference → Text
  | .variable _ (.literal s _) => variableSource s
  | .variable _ (.sequence xs _) => ['$', '('] ++ sourceItems false xs ++ [')']
  | .substitution _ n p r =>
    ['$', '('] ++ n.source false false ++ [':'] ++ p.source false false ++ ['=']
      ++ r.source false false ++ [')']
  | .call _ f args => callSource f.name (sourceArgs args)

/-- The sources of arguments. -/
def sourceArgs : List Expansion → List Text
  | [] => []
  | e :: rest => e.source false false :: sourceArgs rest

end

mutual

/-- An expansion as it is shown. -/
def Expansion.listing : Expansion → Text
  | .literal s loc => "Exp<" ++ Location.optionText loc ++ ">(" ++ Text.quoted s ++ ")"
  | .sequence xs _ => "<Expansion with elements: [" ++ Text.join ", " (listingItems xs) ++ "]>"

/-- Items as they are shown. -/
def listingItems : List Item → List Text
  | [] => []
  | .text s :: rest => Text.quoted s :: listingItems rest
  | .ref r :: rest => r.listing :: listingItems rest

/-- A reference as it is shown. -/
def Reference.listing : Reference → Text
  | .variable loc n => "VariableRef<" ++ Location.optionText loc ++ ">(" ++ n.listing ++ ")"
  | .substitution loc n p r =>
    "SubstitutionRef<" ++ Location.optionText loc ++ ">(" ++ n.listing ++ ":" ++ p.listing ++ "="
      ++ r.listing ++ ")"
  | .call loc f args =>
    f.label ++ "<" ++ Location.optionText loc ++ ">("
      ++ Text.quoted (Text.join [','] (listingArgs args)) ++ ")"

/-- Arguments as they are shown. -/
def listingArgs : List Expansion → List Text
  | [] => []
  | e :: rest => e.listing :: listingArgs rest

end

end Rebuild
