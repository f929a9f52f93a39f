import Rebuild.Expansion.Parser
import Rebuild.Statement.Basic
/-!
# Reading makefiles

The reader goes through the logical lines once. It keeps the statements read so far, the
conditional blocks that are still open, and whether a line that begins with a tab would belong
to a rule. A definition takes the lines of its body from those that follow.
-/

namespace Rebuild

namespace Statement

/-- A conditional block that is still open: its finished groups, the latest first, the
condition of the current group and its statements, the latest first. -/
structure OpenBlock where
  loc : Location
  done : List Group
  condition : Condition
  body : List Statement

/-- What was read so far. -/
structure Reader where
  outer : List Statement
  blocks : List OpenBlock
  /-- Does a line that begins with a tab belong to a rule? -/
  inRule : Bool

namespace OpenBlock

/-- The groups of a block, in order. -/
def groups (b : OpenBlock) : List Group := (.mk b.condition b.body.reverse :: b.done).reverse

/-- Begin another group; nothing may follow an `else` without a condition. -/
def next (b : OpenBlock) (c : Condition) : Except Error OpenBlock :=
  match b.condition with
  | .otherwise _ => .error (.malformed (.secondElse b.loc) (some c.loc))
  | _ => .ok { b with done := .mk b.condition b.body.reverse :: b.done, condition := c, body := [] }

end OpenBlock

namespace Reader

/-- Add a statement. -/
def add (st : Reader) (s : Statement) : Reader :=
  match st.blocks with
  | [] => { st with outer := s :: st.outer }
  | b :: bs => { st with blocks := { b with body := s :: b.body } :: bs }

/-- Add statements in order. -/
def addAll (st : Reader) (ss : List Statement) : Reader := ss.foldl add st

/-- Begin or end a rule. -/
def rule (st : Reader) (b : Bool) : Reader := { st with inRule := b }

end Reader

/-- The words that begin a condition. -/
inductive ConditionWord where
  | ifeq | ifneq | ifdef | ifndef
deriving DecidableEq, Repr

/-- The words that begin a statement, by what they do. -/
inductive Directive where
  | condition (w : ConditionWord)
  | otherwise
  | endif
  | define
  | endef
  | override
  | includes (required deps : Bool)
  | vpath
  | exports
  | unexports
deriving DecidableEq, Repr

/-- The words of conditions. -/
def conditionWords : List (Text × ConditionWord) :=
  [("ifeq", .ifeq), ("ifneq", .ifneq), ("ifdef", .ifdef), ("ifndef", .ifndef)]

/-- The other words. -/
def plainDirectives : List (Text × Directive) :=
  [("else", .otherwise), ("endif", .endif), ("define", .define), ("endef", .endef),
   ("override", .override), ("include", .includes true false), ("-include", .includes false false),
   ("includedeps", .includes true true), ("-includedeps", .includes false true),
   ("vpath", .vpath), ("export", .exports), ("unexport", .unexports)]

/-- All words that begin a statement. -/
def directives : List (Text × Directive) :=
  conditionWords.map (fun p => (p.1, .condition p.2)) ++ plainDirectives

/-- The word of a table that stands at the start of a text and is followed by a blank or by
nothing, with its length and the length together with the blanks after it. -/
def leadingWord? {α : Type} (table : List (Text × α)) (s : Text) : Option (α × Nat × Nat) :=
  table.findSome? fun (w, a) =>
    if w.isPrefixOf s then
      let after := s.drop w.length
      let blanks := (after.takeWhile Text.isBlank).length
      if after.isEmpty || blanks > 0 then some (a, w.length, w.length + blanks) else none
    else none

/-- Only blanks and a comment may follow. -/
def ensureEnd (d : Line) (offset : Nat) (fault : SyntaxFault) : ParseM Unit :=
  if Text.hasInk (d.flatten offset) then throw (.malformed fault (some (d.locAt offset)))
  else return

/-- Read the two sides of a comparison. -/
def readSides (d : Line) (offset : Nat) : ParseM (Expansion × Expansion) := do
  let fail {α : Type} (f : SyntaxFault) (o : Nat) : ParseM α :=
    throw (.malformed f (some (d.locAt o)))
  match d.char? offset with
  | some '(' =>
    let r ← Expansion.parse d (offset + 1) [[',']] (.makefile true)
    match r.stop with
    | none => fail .oneConditionArgument d.stop
    | some (_, offset) =>
      let left ← r.exp.trimRight?
      let r ← Expansion.parse d (d.skipBlanks offset) [[')']] (.makefile true)
      match r.stop with
      | none => throw (.breach .shape)
      | some (_, offset) =>
        ensureEnd d offset .afterConditional
        return (left, r.exp)
  | some q =>
    if q == '\x27' || q == '\x22' then
      let r ← Expansion.parse d (offset + 1) [[q]] (.makefile true)
      match r.stop with
      | none => fail .conditionText d.stop
      | some (_, offset) =>
        let left := r.exp
        let offset := d.skipBlanks offset
        match d.char? offset with
        | none => fail .oneConditionArgument offset
        | some q =>
          if q == '\x27' || q == '\x22' then
            let r ← Expansion.parse d (offset + 1) [[q]] (.makefile true)
            match r.stop with
            | none => throw (.breach .shape)
            | some (_, offset) =>
              ensureEnd d offset .afterConditional
              return (left, r.exp)
          else fail .conditionText offset
    else fail .noConditionArguments offset
  | none => fail .noConditionArguments offset

/-- The condition after its word, which is said to stand at `loc`. -/
def readCondition (w : ConditionWord) (loc : Location) (d : Line) (offset : Nat) :
    ParseM Condition := do
  match w with
  | .ifeq => let (l, r) ← readSides d offset; return .equal loc l r true
  | .ifneq => let (l, r) ← readSides d offset; return .equal loc l r false
  | .ifdef =>
    let r ← Expansion.parse d offset [] (.makefile true)
    return .defined loc (← r.exp.trimRight?) true
  | .ifndef =>
    let r ← Expansion.parse d offset [] (.makefile true)
    return .defined loc (← r.exp.trimRight?) false

/-- Does a line of a definition's body open or close an inner definition? -/
def bodyMark? (s : Text) : Option Bool :=
  let s := Text.trimLeft s
  if s.startsWith "define" then some true
  else if s.startsWith "endef" then some false
  else none

/-- The lines of a definition's body with `depth` inner definitions open, and the lines after
it. -/
def takeBody (depth : Nat) : List Line → Option (List Text × List Line)
  | [] => none
  | d :: rest =>
    let more (depth : Nat) := (takeBody depth rest).map fun p => (d.text :: p.1, p.2)
    match bodyMark? d.text with
    | some true => more (depth + 1)
    | some false => if depth = 0 then some ([], rest) else more (depth - 1)
    | none => more depth

theorem length_le_of_takeBody {depth : Nat} {ls rest : List Line} {body : List Text}
    (h : takeBody depth ls = some (body, rest)) : rest.length ≤ ls.length := by
  induction ls generalizing depth body with
  | nil => simp [takeBody] at h
  | cons d ls ih =>
    simp only [takeBody] at h
    split at h
    · obtain ⟨p, hp, he⟩ := Option.map_eq_some_iff.1 h
      cases he
      exact Nat.le_succ_of_le (ih hp)
    · split at h
      · cases h
        exact Nat.le_succ _
      · obtain ⟨p, hp, he⟩ := Option.map_eq_some_iff.1 h
        cases he
        exact Nat.le_succ_of_le (ih hp)
    · obtain ⟨p, hp, he⟩ := Option.map_eq_some_iff.1 h
      cases he
      exact Nat.le_succ_of_le (ih hp)

/-- The value of a definition from the lines of its body. -/
def bodyValue (body : List Text) : Text := Line.condense (Text.join ['\n'] body)

/-- Read the body of a definition. -/
def readBody (loc : Location) (ls : List Line) : Except Error (Text × List Line) :=
  match takeBody 0 ls with
  | none => .error (.malformed .defineOpen (some loc))
  | some (body, rest) => .ok (bodyValue body, rest)

theorem length_le_of_readBody {loc : Location} {ls rest : List Line} {v : Text}
    (h : readBody loc ls = .ok (v, rest)) : rest.length ≤ ls.length := by
  unfold readBody at h
  split at h
  · cases h
  · rename_i heq
    cases h
    exact length_le_of_takeBody heq

/-- An assignment whose value begins at an offset. -/
def readAssignment (d : Line) (name : Expansion) (mark : AssignMark) (offset : Nat)
    (targets : Option Expansion) (origin : Origin) : Statement :=
  .assign ⟨name, mark, Text.trimLeft (d.flatten offset), d.locAt offset, targets, origin⟩

/-- A name without the blanks around it. -/
def trimName (e : Expansion) : Except Error Expansion := do (← e.trimLeft?).trimRight?

/-- Read a command on the line of its rule. -/
def readInlineCommand (d : Line) (offset : Nat) : ParseM Statement := do
  let r ← Expansion.parse d (d.skipBlanks offset) [] .command
  return .command r.exp

/-- Read what follows the colon of a rule. -/
def readRule (st : Reader) (d : Line) (targets : Expansion) (doubleColon : Bool)
    (offset : Nat) : ParseM Reader := do
  let r ← Expansion.parse d offset (AssignMark.texts ++ [[':'], ['|'], [';']]) (.makefile true)
  match r.stop with
  | none => return (st.add (.rule targets r.exp doubleColon)).rule true
  | some (token, offset) =>
    match AssignMark.ofText? token.text with
    | some mark =>
      let name ← trimName r.exp
      return st.add (readAssignment d name mark offset (some targets) .makefile)
    | none =>
      if token.text == [';'] then
        let c ← readInlineCommand d offset
        return (st.addAll [.rule targets r.exp doubleColon, c]).rule true
      else if token.text == ['|'] then
        throw (.malformed .orderOnly (some (d.locAt offset)))
      else
        let p ← Expansion.parse d offset [[';']] (.makefile true)
        let st := st.add (.staticRule targets r.exp p.exp doubleColon)
        match p.stop with
        | none => return st.rule true
        | some (_, offset) =>
          let c ← readInlineCommand d offset
          return (st.add c).rule true

/-- Read a line that begins with no such word. -/
def readPlain (st : Reader) (d : Line) (offset : Nat) : ParseM Reader := do
  let r ← Expansion.parse d offset (AssignMark.texts ++ [[':', ':'], [':']]) (.makefile true)
  match r.stop with
  | none =>
    let e ← r.exp.trimRight?
    let e ← e.trimLeft?
    return if e.isEmpty then st else st.add (.empty e)
  | some (token, offset) =>
    match AssignMark.ofText? token.text with
    | some mark =>
      let name ← trimName r.exp
      return (st.add (readAssignment d name mark offset none .makefile)).rule false
    | none => readRule (st.rule false) d r.exp (token.text == [':', ':']) offset

/-- A line that begins with a directive other than a definition; `offset` is after the word and
its blanks. -/
def readDirective (st : Reader) (d : Line) (w : Directive) (offset : Nat) : ParseM Reader := do
  match w with
  | .endif =>
    ensureEnd d offset .afterEndif
    match st.blocks with
    | [] => throw (.malformed .endifAlone (some (d.locAt offset)))
    | b :: bs =>
      return Reader.add { st with blocks := bs } (.block b.loc b.groups (d.locAt offset))
  | .otherwise =>
    match st.blocks with
    | [] => throw (.malformed .elseAlone (some (d.locAt offset)))
    | b :: bs =>
      let loc := d.locAt offset
      let c ← match leadingWord? conditionWords (d.rest offset) with
        | none => do
          ensureEnd d offset .afterElse
          pure (.otherwise loc)
        | some (w, n, _) => readCondition w loc d (d.skipBlanks (offset + n))
      let b ← b.next c
      return { st with blocks := b :: bs }
  | .condition w =>
    let c ← readCondition w d.loc d offset
    return { st with blocks := ⟨d.loc, [], c, []⟩ :: st.blocks }
  | .endef => throw (.malformed .endefAlone (some (d.locAt offset)))
  | .define => return st
  | .includes required deps =>
    let r ← Expansion.parse d offset [] (.makefile true)
    return (st.add (.includes r.exp required deps)).rule false
  | .vpath =>
    let r ← Expansion.parse d offset [] (.makefile true)
    return (st.add (.vpath r.exp)).rule false
  | .override =>
    let r ← Expansion.parse d offset AssignMark.texts (.makefile true)
    let name ← trimName r.exp
    match r.stop with
    | none => throw (.malformed .overrideWithoutValue (some d.loc))
    | some (token, offset) =>
      let mark := (AssignMark.ofText? token.text).getD .recursive
      return (st.add (readAssignment d name mark offset none .override)).rule false
  | .exports =>
    let r ← Expansion.parse d offset AssignMark.texts (.makefile true)
    let name ← trimName r.exp
    match r.stop with
    | none => return (st.add (.exports name false)).rule false
    | some (token, offset) =>
      let mark := (AssignMark.ofText? token.text).getD .recursive
      return (st.addAll
        [.exports name true, readAssignment d name mark offset none .makefile]).rule false
  | .unexports =>
    let r ← Expansion.parse d offset [] (.makefile true)
    return st.add (.unexports r.exp)

/-- Read lines in order. -/
def readLines (st : Reader) (ls : List Line) : ParseM Reader :=
  match ls with
  | [] => return st
  | d :: rest =>
    if st.inRule && d.text.head? == some '\t' then do
      let r ← Expansion.parse d (d.start + 1) [] .command
      readLines (st.add (.command r.exp)) rest
    else
      let offset := d.skipBlanks d.start
      match leadingWord? directives (d.rest offset) with
      | none => do
        let st ← readPlain st d offset
        readLines st rest
      | some (.define, _, n) => do
        let r ← Expansion.parse d (offset + n) [] (.makefile true)
        let name ← r.exp.trimRight?
        match _h : readBody d.loc rest with
        | .error e => throw e
        | .ok (value, rest') =>
          let a : Assignment := ⟨name, .recursive, value, d.loc, none, .makefile⟩
          readLines ((st.add (.assign a)).rule false) rest'
      | some (w, _, n) => do
        let st ← readDirective st d w (offset + n)
        readLines st rest
termination_by ls.length
decreasing_by
  · simp
  · simp
  · have := length_le_of_readBody _h
    simp only [List.length_cons]
    omega
  · simp

/-- Read a makefile. -/
def parse (s path : Text) : ParseM (List Statement) := do
  let st ← readLines ⟨[], [], false⟩ (Line.lines s path)
  match st.blocks with
  | [] => return st.outer.reverse
  | b :: _ => throw (.malformed .conditionOpen (some b.loc))

end Statement

end Rebuild
