import Rebuild.Location
import Rebuild.Text.Quoted
/-!
# Errors

Every way in which reading, evaluating or building can fail is one constructor, named for its
cause; the wording is in the `message` functions. Complaints about makefiles carry a location
where one is known. A `Breach` is a rule of the program itself that an input broke; it has no
wording.
-/

namespace Rebuild

/-- Text that is no makefile. -/
inductive SyntaxFault where
  | defineOpen
  | endefAlone
  | afterConditional
  | afterEndif
  | afterElse
  | noConditionArguments
  | oneConditionArgument
  | conditionText
  | endifAlone
  | elseAlone
  | overrideWithoutValue
  | orderOnly
  | conditionOpen
  | callOpen
  | secondElse (block : Location)
deriving DecidableEq, Repr

/-- What is wrong, as it is told. -/
def SyntaxFault.message : SyntaxFault → Text
  | .defineOpen => "define without matching endef"
  | .endefAlone => "endef without matching define"
  | .afterConditional => "Unexpected text after conditional"
  | .afterEndif => "Unexpected data after 'endif' directive"
  | .afterElse => "Unexpected data after 'else' directive."
  | .noConditionArguments => "No arguments after conditional"
  | .oneConditionArgument => "Expected two arguments in conditional"
  | .conditionText => "Unexpected text in conditional"
  | .endifAlone => "unmatched 'endif' directive"
  | .elseAlone => "unmatched 'else' directive"
  | .overrideWithoutValue => "Malformed override directive, need ="
  | .orderOnly => "order-only prerequisites not implemented"
  | .conditionOpen => "Condition never terminated with endif"
  | .callOpen => "Unterminated function call"
  | .secondElse block => "Multiple else conditions for block starting at " ++ block.text

/-- A makefile that reads well and makes no sense. -/
inductive DataFault where
  | fewArguments (function : Text) (least : Nat)
  | selfReference (name : Text)
  | selfCall (name : Text)
  | evalAfterParsing
  | raised (message : Text)
  | noMatch (word : Text)
  | mixedRule
  | staticInDeps
  | staticPatternCount
  | staticTargetPattern (target : Text)
  | recipeInDeps
  | emptyName
  | exportAll
  | strayText
  | mixedColons (prior : Option Location)
  | staticTargetCount
  | staticMismatch (target : Text)
  | manyRecipes (target : Text)
  | libPatterns
  | gpath
  | flagsBackslash
  | missingInclude (path : Text)
  | nativeSpecial (command special : Text)
  | nativeMethod (command : Text)
deriving DecidableEq, Repr

/-- What is wrong, as it is told. -/
def DataFault.message : DataFault → Text
  | .fewArguments f n =>
    "Not enough arguments to function " ++ f ++ ", requires " ++ Text.ofNat n
  | .selfReference name => "Setting variable '" ++ name ++ "' recursively references itself."
  | .selfCall name => "Recursively setting variable '" ++ name ++ "'"
  | .evalAfterParsing =>
    "$(eval) not allowed via recursive expansion after parsing is finished"
  | .raised message => message
  | .noMatch word => "target '" ++ word ++ "' doesn't match pattern"
  | .mixedRule => "Mixed implicit and normal rule"
  | .staticInDeps => "Static pattern rules not allowed in includedeps"
  | .staticPatternCount => "Static pattern rules must have a single pattern"
  | .staticTargetPattern t =>
    "Target '" ++ t ++ "' of a static pattern rule must not be a pattern"
  | .recipeInDeps => "rules not allowed in includedeps"
  | .emptyName => "Empty variable name"
  | .exportAll => "Exporting all variables is not supported"
  | .strayText => "Line expands to non-empty value"
  | .mixedColons prior =>
    "Cannot have single- and double-colon rules for the same target. Prior rule location: "
      ++ Location.optionText prior
  | .staticTargetCount => "Static pattern rules must only have one target pattern"
  | .staticMismatch t => "Static pattern rule doesn't match target '" ++ t ++ "'"
  | .manyRecipes t => "Target '" ++ t ++ "' has multiple rules with commands."
  | .libPatterns => ".LIBPATTERNS contains a non-pattern"
  | .gpath => "GPATH was set: pymake does not support GPATH semantics"
  | .flagsBackslash => "MAKEFLAGS has trailing backslash"
  | .missingInclude p => "No rule to remake missing include file " ++ p
  | .nativeSpecial c s =>
    "native command '" ++ c ++ "': shell metacharacter '" ++ s ++ "' in command line"
  | .nativeMethod c => "native command '" ++ c ++ "': no method name specified"

/-- A target that cannot be made. -/
inductive ResolutionFault where
  | cycle (stack : List Text) (target : Text)
  | noRule (target : Text) (stack : List Text)
deriving DecidableEq, Repr

/-- What is wrong, as it is told. -/
def ResolutionFault.message : ResolutionFault → Text
  | .cycle stack t => "Recursive dependency: " ++ Text.join " -> " stack ++ " -> " ++ t
  | .noRule t stack =>
    "No rule to make target '" ++ t ++ "' needed by " ++ Text.quotedList stack

/-- A rule of the program that an input broke. -/
inductive Breach where
  /-- An offset outside its line, a text where a pattern was due, and other broken promises. -/
  | assertion
  /-- A member asked of a list that is too short. -/
  | index
  | key
  /-- An operation on something that is missing or of another shape. -/
  | shape
  /-- A text that denotes no number, or a list of the wrong length. -/
  | value
  /-- A part that the thing at hand has not. -/
  | part
  | undefinedName
  /-- A local name read before it was set. -/
  | unsetName
  /-- A replacement text that names a group its pattern has not. -/
  | template
  /-- Evaluation nested deeper than the given fuel. -/
  | depth
deriving DecidableEq, Repr

/-- Why a file cannot be used. -/
inductive FileFault where
  | missing
  | notDirectory
  | isDirectory
  | exists
  | denied
deriving DecidableEq, Repr

/-- The wording of a refusal for a path, as programs report it. -/
def FileFault.message (f : FileFault) (p : Text) : Text :=
  let (code, words) : Nat × Text := match f with
    | .missing => (2, "No such file or directory")
    | .denied => (13, "Permission denied")
    | .exists => (17, "File exists")
    | .notDirectory => (20, "Not a directory")
    | .isDirectory => (21, "Is a directory")
  "[Errno " ++ Text.ofNat code ++ "] " ++ words ++ ": " ++ Text.quoted p

/-- What ends a program. -/
inductive Error where
  | malformed (fault : SyntaxFault) (loc : Option Location)
  | refused (fault : DataFault) (loc : Option Location)
  | unresolved (fault : ResolutionFault)
  | requiredIncludes
  | openQuote
  | manyQuotes
  | native (message : Text) (code : Int)
  | exit (code : Int)
  | breach (kind : Breach)
  | file (fault : FileFault) (path : Text)
deriving DecidableEq, Repr

namespace Error

/-- A wording after its location, if that is known. -/
def located (loc : Option Location) (message : Text) : Text :=
  match loc with
  | some l => l.text ++ [':'] ++ message
  | none => message

/-- The error as it is told. -/
def message : Error → Text
  | .malformed f loc => located loc f.message
  | .refused f loc => located loc f.message
  | .unresolved f => f.message
  | .requiredIncludes => "Error remaking required makefiles"
  | .openQuote => "Unterminated quoted string in command"
  | .manyQuotes => "Cannot format condition with multiple quotes."
  | .native m _ => m
  | .exit code => Text.ofInt code
  | .breach _ => []
  | .file f path => f.message path

/-- Is the error a complaint about the makefile, which a make reports and survives? -/
def isComplaint : Error → Bool
  | .malformed .. | .refused .. | .unresolved .. | .requiredIncludes => true
  | _ => false

end Error

end Rebuild
