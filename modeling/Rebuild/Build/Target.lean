import Rebuild.Build.State
/-!
# Making targets

How a target is made: its file and rules are looked for; then the prerequisites of each rule are
made; then the recipe is run if the target is out of date; and when all rules are done, those who
asked for the target are told. With one job at a time the rules and their prerequisites follow
each other. With several, all are begun at once and the recipes of one target follow each other.

Each function does one thing and gives what is to be done at once after it.
-/

namespace Rebuild

namespace RunM

/-- Tell those who asked that a target is done. If it was made anew its file is looked at
again. -/
def notifyDone (b : Nat) (name : Text) : RunM Unit := do
  let w ← work b name
  if w.progress != .working then throw (.breach .assertion)
  if (← target b name).remade then
    onMakefile b do
      let found ← MakeM.firstFile [name]
      MakeM.onTarget name fun t => { t with mtime := some (found.map (·.2)) }
  onWork b name fun w => { w with progress := .finished, replies := [] }
  w.replies.forM fun r => defer b (.reply b name r w.error w.didAnything)

/-- Note that the recipe of a target is needed: from now on it is looked for under its own
name. -/
def beingRemade (b : Nat) (name : Text) : RunM Unit :=
  onMakefile b (MakeM.onTarget name fun t => { t with found := some name, remade := true })

/-- The work on a rule before it is begun. -/
def newRuleWork (rule : Option RuleRef) (deps : List (Text × Bool)) (stack : List Text)
    (avoidLoop : Bool) : RuleWork :=
  ⟨rule, deps, stack, avoidLoop, false, false, deps.length + 1, false, false, [], []⟩

/-- The prerequisites of a rule of a target by their proper names, with whether they are weak. -/
def depsOf (r : RuleRef) (weak : Bool) : MakeM (List (Text × Bool)) := do
  ((← MakeM.makefile).prereqs r).mapM fun p => do return (← MakeM.mention p, weak)

/-- Gather a single-colon rule with those before it. One of them may have a recipe, and its
prerequisites come first. -/
def gatherRule (mk : Makefile) (gathered : Option RuleRef × List (Text × Bool)) (r : RuleRef) :
    MakeM (Option RuleRef × List (Text × Bool)) := do
  let more ← depsOf r (mk.isWeak r)
  if mk.hasCommands r then
    if gathered.1.isSome then throw (.breach .assertion)
    return (some r, more ++ gathered.2)
  else return (gathered.1, gathered.2 ++ more)

/-- The rules to be worked on for a target. Double-colon rules stand for themselves; all
single-colon rules are one, with the recipe that one of them has. -/
def ruleWorks (name : Text) (stack : List Text) (avoidLoop : Bool) : MakeM (List RuleWork) := do
  let mk ← MakeM.makefile
  let t := mk.targetAt name
  if ← ofExcept (mk.isDoubleColon t) then
    t.rules.mapM fun r => do return newRuleWork (some r) (← depsOf r false) stack avoidLoop
  else
    let (rule, deps) ← t.rules.foldlM (gatherRule mk) (none, [])
    return [newRuleWork rule deps stack avoidLoop]

/-- Does a build do one thing at a time? -/
def isSerial (b : Nat) : RunM Bool := do
  let s ← get
  return (s.loop.context (← build b).context).jobs == 1

/-- Begin the work on a target: seek its rules and files. -/
def beginTarget (b : Nat) (name : Text) (stack : List Text) (reply : Reply)
    (avoidLoop report serial : Bool) : RunM (List Action) := do
  setWork b name
    ⟨.working, [reply], false, false, serial, MakeM.indentOf stack, [], [], 0, false⟩
  let failure ← tryCatch (do onMakefile b (MakeM.resolve name stack false); return none) fun e =>
    if e.isComplaint then return some e else throw e
  match failure with
  | some e =>
    if report then print e.message
    onWork b name fun w => { w with error := true }
    notifyDone b name
    return []
  | none =>
    if (← target b name).rules.isEmpty then
      notifyDone b name
      return []
    let rules ← onMakefile b (ruleWorks name stack avoidLoop)
    let order := List.range rules.length
    onWork b name fun w => { w with rules := rules, order := order, remaining := rules.length }
    if serial then return [.recipeDone b name false]
    order.forM fun i => defer b (.resolve ⟨b, name, i⟩)
    return []

/-- Make a target. One that is done is replied to at once; one that is being worked on replies
later, which cannot be where one job runs at a time. -/
def makeTarget (b : Nat) (name : Text) (stack : List Text) (reply : Reply)
    (avoidLoop report : Bool) : RunM (List Action) := do
  let serial ← isSerial b
  match ← work? b name with
  | none => beginTarget b name stack reply avoidLoop report serial
  | some w =>
    match w.progress with
    | .finished => return [.reply b name reply w.error w.didAnything]
    | .working =>
      if serial then throw (.breach .assertion)
      onWork b name fun w => { w with replies := w.replies ++ [reply] }
      return []

/-- Ask for the next prerequisite, or tell that there is none. -/
def nextDep (r : RuleAt) : RunM (List Action) := do
  let x ← ruleWork r
  match x.queue with
  | (dep, weak) :: rest =>
    onRule r fun x => { x with queue := rest }
    defer r.build (.make r.build dep x.stack (.dependent r weak) false true)
    return []
  | [] => return [.resolved r x.error x.didAnything]

/-- Begin with the prerequisites of a rule, one by one or all at once. -/
def resolveRule (r : RuleAt) : RunM (List Action) := do
  onRule r fun x => { x with didAnything := false }
  if (← work r.build r.target).serial then
    onRule r fun x => { x with queue := x.deps }
    nextDep r
  else
    onRule r fun x => { x with depsLeft := x.depsLeft - 1 }
    let x ← ruleWork r
    if x.depsLeft == 0 then return [.resolved r x.error x.didAnything]
    x.deps.forM fun d => defer r.build (.startDep r d.1 d.2)
    return []

/-- See to the prerequisites of a rule, unless a recipe has failed. -/
def resolveAction (r : RuleAt) : RunM (List Action) := do
  if (← build r.build).failed && !(← keepsGoing r.build) then
    onRule r fun x => { x with error := true }
    return [.resolved r true false]
  else resolveRule r

/-- A prerequisite of a rule is done. A weak one that failed makes the target out of date. -/
def depDone (r : RuleAt) (weak error didAnything : Bool) : RunM (List Action) := do
  if weak && error then onRule r fun x => { x with remake := true }
  let error := error && !weak
  let serial := (← work r.build r.target).serial
  if error && !serial then print ("<" ++ r.target ++ ">: Found error")
  onRule r fun x =>
    { x with error := x.error || error, didAnything := x.didAnything || didAnything }
  if serial then
    if error && !(← keepsGoing r.build) then
      return [.resolved r true (← ruleWork r).didAnything]
    nextDep r
  else
    onRule r fun x => { x with depsLeft := x.depsLeft - 1 }
    let x ← ruleWork r
    if x.depsLeft == 0 then return [.resolved r x.error x.didAnything]
    return []

/-- Make a prerequisite of a rule; after a recipe has failed it counts as failed too. -/
def startDep (r : RuleAt) (dep : Text) (weak : Bool) : RunM (List Action) := do
  if (← build r.build).failed then depDone r weak true false
  else return [.make r.build dep (← ruleWork r).stack (.dependent r weak) false true]

/-- Run the next recipe of a target if it is ready; with none left the target is done. Rules with
an error are left out, and after a failed recipe all are. -/
def runNext (b : Nat) (name : Text) : RunM Unit := do
  let w ← work b name
  if w.busy then throw (.breach .assertion)
  let stop := (← build b).failed && !(← keepsGoing b)
  let isBroken (i : Nat) : Bool := (w.rules[i]?.map (·.error)).getD false
  let order := if stop then [] else w.order.dropWhile isBroken
  match order with
  | [] =>
    onWork b name fun w => { w with order := [] }
    if w.remaining == 0 then notifyDone b name
  | i :: rest =>
    if (w.rules[i]?.map (·.depsLeft)).getD 0 != 0 then
      onWork b name fun w => { w with order := order }
    else
      onWork b name fun w => { w with order := rest, busy := true }
      defer b (.recipe ⟨b, name, i⟩)

/-- The recipe of a target is done: go on with its next rule. -/
def recipeDone (b : Nat) (name : Text) (error : Bool) : RunM (List Action) := do
  if error then
    onWork b name fun w => { w with error := true }
    onBuild b fun x => { x with failed := true }
  let w ← work b name
  if w.serial then
    if w.error && !(← keepsGoing b) then
      notifyDone b name
      return []
    match w.order with
    | [] =>
      notifyDone b name
      return []
    | i :: _ => resolveRule ⟨b, name, i⟩
  else
    if !w.busy then throw (.breach .assertion)
    onWork b name fun w => { w with busy := false }
    runNext b name
    return []

/-- The prerequisites of a rule are done: run its recipe, now or in its turn. -/
def resolved (r : RuleAt) (error didAnything : Bool) : RunM (List Action) := do
  let b := r.build
  onWork b r.target fun w =>
    { w with didAnything := w.didAnything || didAnything, error := w.error || error }
  let w ← work b r.target
  if w.serial then
    if error then
      onBuild b fun x => { x with failed := true }
      if !(← keepsGoing b) then
        notifyDone b r.target
        return []
      onWork b r.target fun w => { w with order := w.order.drop 1 }
      return [.recipeDone b r.target false]
    else
      onWork b r.target fun w => { w with order := w.order.drop 1 }
      return [.recipe r]
  else
    onWork b r.target fun w => { w with remaining := w.remaining - 1 }
    if !w.busy then runNext b r.target
    return []

/-- The first prerequisite that is newer than a time. -/
def firstNewer (b : Nat) (time : Time) : List (Text × Bool) → RunM (Option Target)
  | [] => return none
  | (dep, _) :: rest => do
    let d ← target b dep
    if Time.later (← ofExcept d.time) (some time) then return some d
    firstNewer b time rest

/-- Write a remark on a target. -/
def remark (message : Text) : RunM Unit := onWorld (·.log .info .data message)

/-- A rule without a recipe makes nothing; a target that is missing, or has a prerequisite that is
missing, counts as made anew. -/
def withoutRecipe (r : RuleAt) (x : RuleWork) (indent : Text) : RunM Unit := do
  match ← ofExcept (← target r.build r.target).time with
  | none => beingRemade r.build r.target
  | some t =>
    match ← firstNewer r.build t x.deps with
    | none => return
    | some d =>
      if (← ofExcept d.time).isNone then beingRemade r.build r.target
      else remark (indent ++ "Not remaking " ++ r.target
        ++ " ubecause it would have no effect, even though " ++ d.name ++ " is newer.")

/-- Why a recipe is run. -/
inductive Need where
  | weakMissing
  | missing
  | alone
  | newer (dep : Text)
deriving DecidableEq, Repr

/-- The reason as it is told. -/
def Need.message : Need → Text
  | .weakMissing => ": weak dependency was not found."
  | .missing => ": target doesn't exist or is a forced target"
  | .alone => " because there are no prerequisites listed for a double-colon rule."
  | .newer d => " because " ++ d ++ " is newer."

/-- Why the recipe of a rule has to run, if it has. -/
def need (r : RuleAt) (x : RuleWork) (doubleColon : Bool) : RunM (Option Need) := do
  if x.remake then return some .weakMissing
  match ← ofExcept (← target r.build r.target).time with
  | none => return some .missing
  | some t =>
    if doubleColon && x.deps.isEmpty then return some .alone
    return (← firstNewer r.build t x.deps).map fun d => .newer d.name

/-- Begin the recipe of a rule, unless there is no need. -/
def runRecipe (r : RuleAt) : RunM (List Action) := do
  let x ← ruleWork r
  if x.running then throw (.breach .assertion)
  onRule r fun x => { x with running := true }
  let done (error : Bool) : List Action := [.recipeDone r.build r.target error]
  let mk := (← build r.build).makefile
  let indent := (← work r.build r.target).indent
  match x.rule.filter mk.hasCommands with
  | none =>
    withoutRecipe r x indent
    return done false
  | some rule =>
    let doubleColon := mk.doubleColon rule
    let subject : Text := r.target ++ " using rule at " ++ Location.optionText (mk.locOf rule)
    if doubleColon && x.deps.isEmpty && x.avoidLoop then
      remark
        (indent ++ "Not remaking " ++ subject ++ " because it would introduce an infinite loop.")
      return done false
    match ← need r x doubleColon with
    | none => return done false
    | some why =>
      remark (indent ++ "Remaking " ++ subject ++ why.message)
      beingRemade r.build r.target
      onWork r.build r.target fun w => { w with didAnything := true }
      let outcome ← tryCatch (do return some (← onMakefile r.build (Recipe.lines r.target rule)))
        fun e => do
          if e.isComplaint then
            print e.message
            return none
          else throw e
      match outcome with
      | none => return done true
      | some lines =>
        onRule r fun x => { x with lines := lines }
        return [.nextLine r false]

end RunM

end Rebuild
