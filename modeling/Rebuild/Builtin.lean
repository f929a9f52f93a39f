import Rebuild.Text.Basic
/-!
# Built-in functions

The functions that a makefile can call, with the names and argument counts that the reader of
expressions needs. What they compute is said in `Rebuild.Evaluate`.
-/

namespace Rebuild

/-- The functions of makefiles. -/
inductive Builtin where
  | subst | patsubst | strip | findstring | filter | filterOut | sort | word | wordlist | words
  | firstword | lastword | dir | notdir | suffix | basename | addEnd | addStart | join | wildcard
  | realpath | abspath | cond | or | and | foreach | call | value | eval | origin | flavor | shell
  | error | warning | info
deriving DecidableEq, Repr

namespace Builtin

/-- All functions, in the order in which their names are tried. -/
def all : List Builtin :=
  [.subst, .patsubst, .strip, .findstring, .filter, .filterOut, .sort, .word, .wordlist, .words,
   .firstword, .lastword, .dir, .notdir, .suffix, .basename, .addEnd, .addStart, .join, .wildcard,
   .realpath, .abspath, .cond, .or, .and, .foreach, .call, .value, .eval, .origin, .flavor, .shell,
   .error, .warning, .info]

/-- The name of a function in a makefile. -/
def name : Builtin → Text
  | .subst => "subst" | .patsubst => "patsubst" | .strip => "strip" | .findstring => "findstring"
  | .filter => "filter" | .filterOut => "filter-out" | .sort => "sort" | .word => "word"
  | .wordlist => "wordlist" | .words => "words" | .firstword => "firstword"
  | .lastword => "lastword" | .dir => "dir" | .notdir => "notdir" | .suffix => "suffix"
  | .basename => "basename" | .addEnd => "addsuffix" | .addStart => "addprefix" | .join => "join"
  | .wildcard => "wildcard" | .realpath => "realpath" | .abspath => "abspath" | .cond => "if"
  | .or => "or" | .and => "and" | .foreach => "foreach" | .call => "call" | .value => "value"
  | .eval => "eval" | .origin => "origin" | .flavor => "flavor" | .shell => "shell"
  | .error => "error" | .warning => "warning" | .info => "info"

/-- The name of a function in texts about it. -/
def label : Builtin → Text
  | .subst => "SubstFunction" | .patsubst => "PatSubstFunction" | .strip => "StripFunction"
  | .findstring => "FindstringFunction" | .filter => "FilterFunction"
  | .filterOut => "FilteroutFunction" | .sort => "SortFunction" | .word => "WordFunction"
  | .wordlist => "WordlistFunction" | .words => "WordsFunction"
  | .firstword => "FirstWordFunction" | .lastword => "LastWordFunction" | .dir => "DirFunction"
  | .notdir => "NotDirFunction" | .suffix => "SuffixFunction" | .basename => "BasenameFunction"
  | .addEnd => "AddSuffixFunction" | .addStart => "AddPrefixFunction" | .join => "JoinFunction"
  | .wildcard => "WildcardFunction" | .realpath => "RealpathFunction"
  | .abspath => "AbspathFunction" | .cond => "IfFunction" | .or => "OrFunction"
  | .and => "AndFunction" | .foreach => "ForEachFunction" | .call => "CallFunction"
  | .value => "ValueFunction" | .eval => "EvalFunction" | .origin => "OriginFunction"
  | .flavor => "FlavorFunction" | .shell => "ShellFunction" | .error => "ErrorFunction"
  | .warning => "WarningFunction" | .info => "InfoFunction"

/-- How many arguments a function needs. -/
def minArgs : Builtin → Nat
  | .subst | .patsubst | .wordlist | .foreach => 3
  | .findstring | .filter | .filterOut | .word | .addEnd | .addStart | .join => 2
  | _ => 1

/-- The greatest number of arguments, if there is one; the last of them takes all the text. -/
def maxArgs? : Builtin → Option Nat
  | .or | .and | .call => none
  | .cond => some 3
  | f => some f.minArgs

/-- Does the function take just one more argument when it has `n`? -/
def lastAfter (f : Builtin) (n : Nat) : Bool := f.maxArgs? == some (n + 1)

/-- Does a function depend on the files? -/
def readsFiles : Builtin → Bool
  | .wildcard | .realpath => true
  | _ => false

end Builtin

end Rebuild
