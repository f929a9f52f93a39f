import Rebuild.Builtin
import Rebuild.Line.Flatten
/-!
# Tokens

The marks that can matter to the reader of expressions: hash signs with the backslashes before
them, assignment and colon marks, references that begin with a dollar sign, and single
punctuation marks. The lexemes of a text are its tokens, from the left and without overlap,
each with the plain text before it. What a lexeme means depends on the mode of reading: plain
data, makefile text (continuations and comments) or recipe text.
-/

namespace Rebuild

/-- The two kinds of parentheses. -/
inductive Brace where
  | round
  | curly
deriving DecidableEq, Repr

namespace Brace

/-- The opening parenthesis. -/
def opening : Brace → Char
  | .round => '('
  | .curly => '\x7b'

/-- The closing parenthesis. -/
def closing : Brace → Char
  | .round => ')'
  | .curly => '\x7d'

/-- The kind of an opening parenthesis. -/
def ofOpening? : Char → Option Brace
  | '(' => some .round
  | '\x7b' => some .curly
  | _ => none

end Brace

/-- A part of a line that may mean something. -/
inductive Token where
  /-- A hash sign after some backslashes. -/
  | hash (slashes : Nat)
  /-- A dollar sign at the end of the text, or before a newline that ends it. -/
  | dollar
  /-- A dollar sign and one character. -/
  | reference (c : Char)
  /-- A dollar sign, a parenthesis, the name of a function and blanks. -/
  | call (brace : Brace) (fn : Builtin) (blanks : Text)
  | mark (text : Text)
deriving DecidableEq, Repr

namespace Token

/-- A token as it is written. -/
def text : Token → Text
  | .hash n => Text.copies n '\\' ++ ['#']
  | .dollar => ['$']
  | .reference c => ['$', c]
  | .call b f blanks => ['$', b.opening] ++ f.name ++ blanks
  | .mark s => s

/-- Does a token begin with a dollar sign? -/
def isReference : Token → Bool
  | .dollar | .reference _ | .call .. => true
  | _ => false

/-- The punctuation marks of one character. -/
def singles : List Char :=
  ['=', '#', '\x7b', '\x7d', '(', ')', ';', ',', '|', '\x27', '\x22']

/-- The call that begins after a dollar sign and an opening parenthesis: the function and the
blanks that must follow its name. -/
def callAfter? (s : Text) : Option (Builtin × Text) :=
  Builtin.all.findSome? fun f =>
    if f.name.isPrefixOf s then
      let blanks := (s.drop f.name.length).takeWhile Text.isBlank
      if blanks.isEmpty then none else some (f, blanks)
    else none

/-- The token that begins with a dollar sign before `s`. -/
def afterDollar? : Text → Option Token
  | [] => some .dollar
  | ['\n'] => some .dollar
  | '\n' :: _ => none
  | c :: rest =>
    match Brace.ofOpening? c with
    | some b =>
      match callAfter? rest with
      | some (f, blanks) => some (.call b f blanks)
      | none => some (.reference c)
    | none => some (.reference c)

/-- The token at the start of a text. -/
def match? (s : Text) : Option Token :=
  let slashes := (s.takeWhile (· == '\\')).length
  match s.drop slashes with
  | '#' :: _ => some (.hash slashes)
  | _ =>
    match s with
    | ':' :: '=' :: _ => some (.mark [':', '='])
    | '+' :: '=' :: _ => some (.mark ['+', '='])
    | '?' :: '=' :: _ => some (.mark ['?', '='])
    | ':' :: ':' :: _ => some (.mark [':', ':'])
    | '$' :: rest => afterDollar? rest
    | ':' :: '\\' :: _ => none
    | ':' :: '/' :: _ => none
    | ':' :: _ => some (.mark [':'])
    | c :: _ => if singles.contains c then some (.mark [c]) else none
    | [] => none

end Token

/-- A token with the text before it. -/
structure Lexeme where
  before : Text
  token : Token
  start : Nat
deriving DecidableEq, Repr

namespace Lexeme

/-- The offset after a token. -/
def stop (x : Lexeme) : Nat := x.start + x.token.text.length

/-- The lexemes of a text that begins at an offset, and the text after the last token. `before`
holds the characters since the last token, the latest first. -/
def scan (before : Text) (offset : Nat) (s : Text) : List Lexeme × Text :=
  match s with
  | [] => ([], before.reverse)
  | c :: rest =>
    match Token.match? (c :: rest) with
    | none => scan (c :: before) (offset + 1) rest
    | some token =>
      let n := token.text.length
      let tail := scan [] (offset + n) (rest.drop (n - 1))
      (⟨before.reverse, token, offset⟩ :: tail.1, tail.2)
termination_by s.length
decreasing_by all_goals simp only [List.length_drop, List.length_cons]; omega

end Lexeme

/-- The lexemes of a line from an offset on, and the text after the last token. -/
def Line.lexemes (d : Line) (offset : Nat) : List Lexeme × Text :=
  Lexeme.scan [] offset (d.rest offset)

/-- How text is read. -/
inductive Mode where
  /-- Without continuations and comments. -/
  | data
  /-- As makefile text; comments count only if the flag is set. -/
  | makefile (comments : Bool)
  | command
deriving DecidableEq, Repr

/-- What a token means to a reader. -/
inductive Reading where
  /-- The text ends here, in a comment. -/
  | ended (text : Text)
  | plain (text : Text)
  | found (before : Text)
deriving DecidableEq, Repr

namespace Mode

/-- The text as a mode takes it. -/
def flat : Mode → Text → Text
  | .data, s => s
  | .makefile _, s => Line.condense s
  | .command, s => Line.untab s

/-- Is a token asked for by a list of token texts? A dollar sign asks for every reference. -/
def wants (tokens : List Text) (t : Token) : Bool :=
  tokens.contains t.text || (t.isReference && tokens.contains ['$'])

/-- The token ends in a hash sign: how many backslashes stand before that, and is it a
comment? The reference `$#` counts as a hash sign after one backslash. -/
def hash? : Token → Option Nat
  | .hash n => some n
  | .reference '#' => some 1
  | _ => none

/-- What a token means in a mode. -/
def read (m : Mode) (tokens : List Text) (x : Lexeme) : Reading :=
  let before := m.flat x.before
  let ordinary :=
    if wants tokens x.token then .found before else .plain (before ++ x.token.text)
  match m with
  | .makefile true =>
    match hash? x.token with
    | some n =>
      if n % 2 = 0 then .ended (before ++ Text.copies (n / 2) '\\')
      else .plain (before ++ Text.copies (n / 2) '\\' ++ ['#'])
    | none => ordinary
  | _ => ordinary

end Mode

/-- A stretch of read text: its flat text, the token that ends it with the token's offset, and
the offset after it; these are missing at the end of the text. -/
structure Piece where
  text : Text
  token : Option (Token × Nat)
  next : Option Nat
deriving DecidableEq, Repr

namespace Piece

/-- The pieces that tokens leave to a reader. -/
def ofLexemes (m : Mode) (tokens : List Text) (tail : Text) : List Lexeme → List Piece
  | [] => [⟨m.flat tail, none, none⟩]
  | x :: xs =>
    match m.read tokens x with
    | .ended s => [⟨s, none, none⟩]
    | .plain s => ⟨s, none, some x.stop⟩ :: ofLexemes m tokens tail xs
    | .found s => ⟨s, some (x.token, x.start), some x.stop⟩ :: ofLexemes m tokens tail xs

/-- The pieces of a line from an offset on. Reading plain data without asking for a token is
meaningless. -/
def ofLine (m : Mode) (tokens : List Text) (d : Line) (offset : Nat) :
    Except Error (List Piece) :=
  if (m == .data && tokens.isEmpty) || !d.covers offset then .error (.breach .assertion)
  else if offset = d.stop then .ok []
  else
    let xs := d.lexemes offset
    .ok (ofLexemes m tokens xs.2 xs.1)

end Piece

end Rebuild
