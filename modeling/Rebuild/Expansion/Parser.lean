import Rebuild.Expansion.Basic
/-!
# Reading expansions

The reader is a fold over the lexemes of a line. It keeps the items of the outermost expansion
and a stack of open references; each open reference knows its kind of parenthesis, how many
parentheses of that kind are open inside it, and what it has gathered. Which tokens matter to
the next lexeme depends only on the innermost open reference.
-/

namespace Rebuild

/-- A remark of the reader: a reference that looks like a substitution has no equals sign. -/
structure Notice where
  loc : Location
deriving DecidableEq, Repr

/-- The notice as it is told. -/
def Notice.message (n : Notice) : Text :=
  n.loc.text ++ ": Variable reference looks like substitution without ="

/-- Reading: it may fail, and the remarks made before a failure stay. -/
abbrev ParseM := ExceptT Error (StateM (List Notice))

namespace ParseM

/-- What a reader returns, with its notices. -/
def outcome {α : Type} (p : ParseM α) : Except Error α × List Notice := p.run []

end ParseM

namespace Expansion

/-- What an open reference is, and the parts of it that are complete. -/
inductive Role where
  /-- A call with the arguments read so far, the latest first. -/
  | call (loc : Location) (fn : Builtin) (args : List Expansion)
  | name (loc : Location)
  /-- The pattern of a substitution, after the name. -/
  | pattern (loc : Location) (name : List Item)
  /-- The replacement of a substitution, after name and pattern. -/
  | replacement (loc : Location) (name pattern : List Item)

/-- A reference that is being read. -/
structure Frame where
  brace : Brace
  /-- How many parentheses of that kind are open inside it. -/
  nested : Nat
  /-- The items gathered for the current part, the latest first. -/
  gathered : List Item
  role : Role

/-- The reader's state: the outermost items, the latest first, and the open references, the
innermost first. -/
structure Reader where
  outer : List Item
  frames : List Frame

/-- The tokens that mean something in a reference. -/
def Frame.tokens (f : Frame) : List Text :=
  let base := [[f.brace.opening], [f.brace.closing], ['$']]
  if f.nested > 0 then base
  else match f.role with
    | .call _ fn args => if fn.lastAfter args.length then base else [','] :: base
    | .name _ => [':'] :: base
    | .pattern .. => ['='] :: base
    | .replacement .. => base

/-- Add an item to what is being read. -/
def Reader.add (st : Reader) (i : Item) : Reader :=
  match st.frames with
  | [] => { st with outer := i :: st.outer }
  | f :: fs => { st with frames := { f with gathered := i :: f.gathered } :: fs }

/-- Add a text, unless it is empty. -/
def Reader.addText (st : Reader) (s : Text) : Reader := if s.isEmpty then st else st.add (.text s)

/-- Begin a reference. -/
def Reader.enter (st : Reader) (brace : Brace) (role : Role) : Reader :=
  { st with frames := ⟨brace, 0, [], role⟩ :: st.frames }

/-- Replace the innermost reference. -/
def Reader.setTop (st : Reader) (f : Frame) : Reader := { st with frames := f :: st.frames.drop 1 }

/-- End the innermost reference. -/
def Reader.leave (st : Reader) (r : Reference) : Reader :=
  Reader.add { st with frames := st.frames.drop 1 } (.ref r)

/-- A complete call, whose arguments must be enough and not too many; the condition of an `if` is
trimmed. -/
def makeCall (loc : Location) (fn : Builtin) (args : List Expansion) : Except Error Reference :=
  if args.length < fn.minArgs then
    .error (.refused (.fewArguments fn.name fn.minArgs) (some loc))
  else if fn.maxArgs?.any (· < args.length) then .error (.breach .assertion)
  else match fn, args with
    | .cond, c :: rest => do
      let c ← c.trimLeft?
      let c ← c.trimRight?
      return .call (some loc) fn (c :: rest)
    | _, _ => .ok (.call (some loc) fn args)

/-- A closing parenthesis ends the innermost open reference. -/
def Reader.close (st : Reader) (f : Frame) : ParseM Reader :=
  let part := f.gathered.reverse
  match f.role with
  | .call loc fn args => do
    let r ← makeCall loc fn ((ofItems part none) :: args).reverse
    return st.leave r
  | .name loc => return st.leave (.variable (some loc) (ofItems part none))
  | .pattern loc name => do
    modify fun ns => ns ++ [⟨loc⟩]
    return st.leave (.variable (some loc) (ofItems (name ++ [.text [':']] ++ part) none))
  | .replacement loc name pattern =>
    return st.leave
      (.substitution (some loc) (ofItems name none) (ofItems pattern none) (ofItems part none))

/-- A mark ends the current part of the innermost open reference, which goes on in a role; it must
be the mark that the part waits for. -/
def Reader.endPart (st : Reader) (f : Frame) (s awaited : Text) (role : Role) : ParseM Reader :=
  if s == awaited then return st.setTop { f with gathered := [], role := role }
  else throw (.breach .assertion)

/-- Read a mark inside a reference. -/
def Reader.mark (st : Reader) (f : Frame) (s : Text) : ParseM Reader :=
  let part := f.gathered.reverse
  if s == [f.brace.opening] then
    return st.setTop { f with nested := f.nested + 1, gathered := .text s :: f.gathered }
  else if s == [f.brace.closing] then
    if f.nested > 0 then
      return st.setTop { f with nested := f.nested - 1, gathered := .text s :: f.gathered }
    else st.close f
  else if f.nested > 0 then throw (.breach .assertion)
  else match f.role with
    | .call loc fn args => st.endPart f s [','] (.call loc fn (ofItems part none :: args))
    | .name loc => st.endPart f s [':'] (.pattern loc part)
    | .pattern loc name => st.endPart f s ['='] (.replacement loc name part)
    | .replacement .. => throw (.breach .assertion)

/-- A reference of a dollar sign and one character that stands at `loc`. -/
def Reader.reference (st : Reader) (loc : Location) (c : Char) : Reader :=
  if c == '$' then st.addText ['$']
  else match Brace.ofOpening? c with
    | some b => st.enter b (.name loc)
    | none => st.add (.ref (.variable (some loc) (.literal [c] (some loc.inner))))

/-- What was read: the expansion, and the token that stopped it with the offset after it. -/
structure Read where
  exp : Expansion
  stop : Option (Token × Nat)

/-- The text is used up. A reference that is still open is an error, which can be located only
if the last thing read was a token that mattered. -/
def Reader.finish (st : Reader) (d : Line) (located : Bool) : ParseM Read :=
  if st.frames.isEmpty then return ⟨ofItems st.outer.reverse (some d.loc), none⟩
  else if located then throw (.malformed .callOpen (some (d.locAt d.stop)))
  else throw (.breach .shape)

/-- How the next lexeme is read: inside references, recipe text is read as makefile text in
which hash signs are text. -/
def Reader.mode (st : Reader) (m : Mode) : Mode :=
  if m == .command && !st.frames.isEmpty then .makefile false else m

/-- The tokens that mean something now. -/
def Reader.tokens (st : Reader) (stops : List Text) : List Text :=
  match st.frames with
  | [] => stops ++ [['$']]
  | f :: _ => f.tokens

/-- Read the lexemes of a line and the text after them. `fresh` tells that the last token
mattered, or that nothing was read yet. -/
def readLexemes (d : Line) (m : Mode) (stops : List Text) (tail : Text) (fresh : Bool)
    (st : Reader) : List Lexeme → ParseM Read
  | [] =>
    if fresh && tail.isEmpty then st.finish d true
    else (st.addText ((st.mode m).flat tail)).finish d false
  | x :: xs =>
    match (st.mode m).read (st.tokens stops) x with
    | .ended s => (st.addText s).finish d false
    | .plain s => readLexemes d m stops tail false (st.addText s) xs
    | .found s =>
      let st := st.addText s
      let go (st : Reader) : ParseM Read := readLexemes d m stops tail true st xs
      match x.token with
      | .dollar => if x.stop = d.stop then st.finish d true else throw (.breach .index)
      | .reference c => go (st.reference (d.locAt x.start) c)
      | .call b fn _ => go (st.enter b (.call (d.locAt x.start) fn []))
      | t =>
        match st.frames with
        | [] =>
          if t.text == ['('] || t.text == ['\x7b'] then throw (.breach .assertion)
          else return ⟨ofItems st.outer.reverse (some d.loc), some (t, x.stop)⟩
        | f :: _ => do
          let st ← st.mark f t.text
          go st

/-- Read an expansion from a line, from an offset up to one of the stop tokens. -/
def parse (d : Line) (offset : Nat) (stops : List Text) (m : Mode) : ParseM Read :=
  if d.covers offset then
    let xs := d.lexemes offset
    readLexemes d m stops xs.2 true ⟨[], []⟩ xs.1
  else throw (.breach .assertion)

/-- Read a text by itself. -/
def parseText (s path : Text) : ParseM Expansion := do
  let r ← parse (Line.ofText s path) 0 [] .data
  return r.exp

end Expansion

end Rebuild
