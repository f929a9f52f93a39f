import Rebuild.Token
/-!
# Expansions

An expansion is text that may hold references: to variables, to variables with a substitution,
or calls of built-in functions, whose parts are expansions again. Text without references is a
literal. A sequence is in normal form when it has a reference, no empty text and no two texts
side by side; `finish` brings a list of items there.
-/

namespace Rebuild

mutual

/-- A text with references in it. -/
inductive Expansion where
  | literal (text : Text) (loc : Option Location)
  /-- Texts and references in order. -/
  | sequence (items : List Item) (loc : Option Location)

/-- A part of an expansion. -/
inductive Item where
  | text (s : Text)
  | ref (r : Reference)

/-- A reference that evaluation replaces. -/
inductive Reference where
  | variable (loc : Option Location) (name : Expansion)
  /-- The value of a variable with a pattern replaced in each word. -/
  | substitution (loc : Option Location) (name pattern replacement : Expansion)
  | call (loc : Option Location) (fn : Builtin) (args : List Expansion)

end

deriving instance Repr for Expansion, Item, Reference

instance : Inhabited Expansion := ⟨.literal [] none⟩

namespace Item

/-- A list of items with neighbouring texts joined and empty texts left out. -/
def merge : List Item → List Item
  | [] => []
  | .ref r :: rest => .ref r :: merge rest
  | .text s :: rest =>
    match merge rest with
    | .text t :: more => .text (s ++ t) :: more
    | more => if s.isEmpty then more else .text s :: more

/-- The texts among items. -/
def textOf (items : List Item) : Text :=
  items.flatMap fun
    | .text s => s
    | .ref _ => []

/-- Is there a reference among items? -/
def hasRef (items : List Item) : Bool :=
  items.any fun
    | .text _ => false
    | .ref _ => true

/-- The items without the blanks before the first reference or ink. -/
def trimLeft : List Item → List Item
  | .text s :: rest =>
    match Text.trimLeft s with
    | [] => trimLeft rest
    | t => .text t :: rest
  | items => items

/-- `trimLeft` from the other end, on the reversed list. -/
def trimRightRev : List Item → List Item
  | .text s :: rest =>
    match Text.trimRight s with
    | [] => trimRightRev rest
    | t => .text t :: rest
  | items => items

/-- The items without the blanks after the last reference or ink. -/
def trimRight (items : List Item) : List Item := (trimRightRev items.reverse).reverse

/-- A text as items. -/
def ofText (s : Text) : List Item := if s.isEmpty then [] else [.text s]

end Item

namespace Expansion

/-- Items as an expansion, a plain text if they are. -/
def ofItems (items : List Item) (loc : Option Location) : Expansion :=
  if Item.hasRef items then .sequence (Item.merge items) loc
  else .literal (Item.textOf items) loc

/-- Where an expansion stands. -/
def loc : Expansion → Option Location
  | .literal _ l => l
  | .sequence _ l => l

/-- The items of an expansion. -/
def items : Expansion → List Item
  | .literal s _ => Item.ofText s
  | .sequence xs _ => xs

/-- Is an expansion empty, or begun by an empty text? -/
def isEmpty : Expansion → Bool
  | .literal s _ => s.isEmpty
  | .sequence [] _ => true
  | .sequence (.text [] :: _) _ => true
  | .sequence _ _ => false

/-- Is an expansion free of references? -/
def isStatic : Expansion → Bool
  | .literal _ _ => true
  | .sequence xs _ => !Item.hasRef xs

/-- The number of items. -/
def length : Expansion → Nat
  | .literal _ _ => 1
  | .sequence xs _ => xs.length

/-- The expansion in its shortest form. -/
def finish : Expansion → Expansion
  | .literal s l => .literal s l
  | .sequence xs l => ofItems xs l

/-- The expansion as a sequence that can grow; only a literal keeps its location. -/
def clone : Expansion → Expansion
  | .literal s l => .sequence (Item.ofText s) l
  | .sequence xs _ => .sequence xs none

/-- The expansion without blanks at its start. -/
def trimLeft : Expansion → Expansion
  | .literal s l => .literal (Text.trimLeft s) l
  | .sequence xs l => .sequence (Item.trimLeft xs) l

/-- The expansion without blanks at its end. -/
def trimRight : Expansion → Expansion
  | .literal s l => .literal (Text.trimRight s) l
  | .sequence xs l => .sequence (Item.trimRight xs) l

/-- A trimmed expansion; a sequence that lost all its members cannot be trimmed. -/
def trimmed : Expansion → Except Error Expansion
  | .sequence [] _ => .error (.breach .index)
  | e => .ok e

/-- The expansion without blanks at its start, which must have something else. -/
def trimLeft? (e : Expansion) : Except Error Expansion := e.trimLeft.trimmed

/-- The expansion without blanks at its end, which must have something else. -/
def trimRight? (e : Expansion) : Except Error Expansion := e.trimRight.trimmed

/-- A literal located at the start of a text of its own. -/
def ofWord (s path : Text) : Expansion := .literal s (some ⟨path, 1, 0⟩)

mutual

/-- How deep references nest. -/
def depth : Expansion → Nat
  | .literal _ _ => 0
  | .sequence xs _ => depthItems xs

/-- How deep references nest in items. -/
def depthItems : List Item → Nat
  | [] => 0
  | .text _ :: rest => depthItems rest
  | .ref r :: rest => max (depthRef r) (depthItems rest)

/-- One more than the depth of the deepest part. -/
def depthRef : Reference → Nat
  | .variable _ n => n.depth + 1
  | .substitution _ n p r => max n.depth (max p.depth r.depth) + 1
  | .call _ _ args => depthArgs args + 1

/-- How deep references nest in arguments. -/
def depthArgs : List Expansion → Nat
  | [] => 0
  | e :: rest => max e.depth (depthArgs rest)

end

end Expansion

end Rebuild
