import Rebuild.Error
/-!
# Patterns

A pattern is text that may hold one operative percent sign, which stands for any stem. A
backslash quotes a percent sign or a backslash before the operative sign; after it nothing is
quoted. A pattern text that ends in a lone backslash cannot be read.
-/

namespace Rebuild

/-- A text with at most one place for a stem. -/
inductive Pattern where
  /-- A text without an operative percent sign. -/
  | exact (text : Text)
  | stem (before after : Text)
deriving DecidableEq, Repr

namespace Pattern

/-- Read a pattern; `before` holds the characters read, the latest first. -/
def parseFrom (before : Text) : Text → Except Error Pattern
  | [] => .ok (.exact before.reverse)
  | ['\\'] => .error (.breach .index)
  | '\\' :: '%' :: rest => parseFrom ('%' :: before) rest
  | '\\' :: '\\' :: rest => parseFrom ('\\' :: before) rest
  | '%' :: rest => .ok (.stem before.reverse rest)
  | c :: rest => parseFrom (c :: before) rest

/-- Read a pattern. -/
def parse (s : Text) : Except Error Pattern := parseFrom [] s

/-- Is there a place for a stem? -/
def isPattern : Pattern → Bool
  | .exact _ => false
  | .stem _ _ => true

/-- Does a pattern fit everything? -/
def matchesAny (p : Pattern) : Bool := p == .stem [] []

/-- The texts around the stem. -/
def parts : Pattern → List Text
  | .exact s => [s]
  | .stem a b => [a, b]

/-- The only name that a pattern without stem matches. -/
def target : Pattern → Except Error Text
  | .exact s => .ok s
  | .stem _ _ => .error (.breach .assertion)

/-- Has the pattern a slash? Of a pattern without stem only a slash can be found, not the want
of one. -/
def hasSlash : Pattern → Except Error Bool
  | .exact s => if s.contains '/' then .ok true else .error (.breach .index)
  | .stem a b => .ok (a.contains '/' || b.contains '/')

/-- The stem of a word that matches; a pattern without stem gives the word itself. -/
def match? (p : Pattern) (word : Text) : Option Text :=
  match p with
  | .exact s => if word == s then some word else none
  | .stem a b =>
    if a.length + b.length ≤ word.length && word.startsWith a && word.endsWith b then
      some ((word.drop a.length).take (word.length - a.length - b.length))
    else none

/-- Does a word match with something in place of the stem? -/
def matchesInk (p : Pattern) (word : Text) : Bool :=
  match p.match? word with
  | some middle => !middle.isEmpty
  | none => false

/-- The name that the pattern gives for a stem, in a directory. -/
def resolve (p : Pattern) (dir stem : Text) : Text :=
  match p with
  | .exact s => s
  | .stem a b => dir ++ a ++ stem ++ b

/-- The word with the pattern replaced; a word that does not match stays. -/
def subst (p : Pattern) (replacement word : Text) : Except Error Text :=
  match p.match? word with
  | none => .ok word
  | some middle =>
    if p.isPattern then do
      let r ← parse replacement
      return r.resolve [] middle
    else .ok replacement

/-- Replace a word, which must fit. -/
def substMust (p : Pattern) (replacement word : Text) : Except Error Text :=
  match p.match? word with
  | none => .error (.refused (.noMatch word) none)
  | some _ => p.subst replacement word

/-- A pattern as it is shown. -/
def listing (p : Pattern) : Text :=
  let inner := match p with
    | .exact s => Text.quoted s ++ [',']
    | .stem a b => Text.quoted a ++ [',', ' '] ++ Text.quoted b
  "<Pattern with data (" ++ inner ++ ")>"

end Pattern

end Rebuild
