import Rebuild.Text.Printable
/-!
# Quoted text

Messages show texts between quotes. The quote is the apostrophe, unless the text holds an
apostrophe and no double quote; a backslash, the quote itself and characters that are not
printable are escaped.
-/

namespace Rebuild

namespace Text

/-- The last `n` hexadecimal digits of a number, in lower case. -/
def hex (n : Nat) (v : Nat) : Text :=
  let ds := Nat.toDigits 16 v
  copies (n - ds.length) '0' ++ ds

/-- A character inside quotes. -/
def quoteChar (q c : Char) : Text :=
  if c == q || c == '\\' then ['\\', c]
  else if c == '\n' then ['\\', 'n']
  else if c == '\r' then ['\\', 'r']
  else if c == '\t' then ['\\', 't']
  else if isPrintable c then [c]
  else if c.toNat < 0x100 then ['\\', 'x'] ++ hex 2 c.toNat
  else if c.toNat < 0x10000 then ['\\', 'u'] ++ hex 4 c.toNat
  else ['\\', 'U'] ++ hex 8 c.toNat

/-- A text in quotes. -/
def quoted (s : Text) : Text :=
  let q := if s.contains '\x27' && !s.contains '\x22' then '\x22' else '\x27'
  [q] ++ s.flatMap (quoteChar q) ++ [q]

/-- A list of texts, each quoted, in square brackets. -/
def quotedList (ss : List Text) : Text :=
  ['['] ++ join [',', ' '] (ss.map quoted) ++ [']']

end Text

end Rebuild
