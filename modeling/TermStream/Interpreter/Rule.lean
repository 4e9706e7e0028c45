import TermStream.Interpreter.Recovery

namespace TermStream

/-- Ends of statements, of blocks and of the input are consumed by other frames than rules. -/
def PhraseKind.isOuter (k : PhraseKind) : Bool := k.closesStatement || k == .statementEnd

namespace RuleFrame

/-- Takes what the frame needs while it runs: a mark, keywords, and line breaks that end nothing. -/
def enter (f : RuleFrame) (ws : Workspace) : RuleFrame × Workspace :=
  let ws := if f.marked then ws.pushMark else ws
  let ws := match f.keywords with
    | some id => { ws with keywords := ws.keywords.push id }
    | none => ws
  let f := { f with
    entered := true
    keywordsPushed := f.keywordsPushed || f.keywords.isSome
    keywordDepth := ws.keywords.depth }
  (f, if f.disablesSoftEnd then ws.disableSoftEnd else ws)

def dropKeywords (f : RuleFrame) (ws : Workspace) : RuleFrame × Workspace :=
  if f.keywordsPushed then
    ({ f with keywordsPushed := false }, { ws with keywords := ws.keywords.pop })
  else (f, ws)

def leave (f : RuleFrame) (ws : Workspace) : Except Misuse Workspace := do
  let ws ← if f.marked then ws.popMark else pure ws
  let (f, ws) := f.dropKeywords ws
  return if f.disablesSoftEnd then ws.enableSoftEnd else ws

def goto (f : RuleFrame) (id : ActionId) : RuleFrame := { f with current := id }

def act (f : RuleFrame) (below : List Activation) (ws : Workspace) (input : Cell Phrase)
    (result : CallResult) (a : Action) : Except Halt Turn :=
  let again := fun (f : RuleFrame) (ws : Workspace) (input : Cell Phrase) =>
    (⟨.again (.rule f), below, ws, input⟩ : Turn)
  let hungry : Turn := ⟨.needInput (.rule f), below, ws, input⟩
  match a with
  | .advance skipDocComments next =>
    match input with
    | none => .ok hungry
    | some p =>
      if ws.isSkippable p skipDocComments then .ok (again f (ws.skip p) none)
      else .ok (again (f.goto next) ws input)
  | .call rule success failure =>
    match result with
    | .none => do
      let child ← Halt.ofMissing (Frame.ofRule f.grammar rule)
      return ⟨.call (.rule f) child, below, ws, input⟩
    | .success => .ok (again (f.goto success) ws input)
    | .failure => .ok (again (f.goto failure) ws input)
  | .choice table =>
    match input with
    | none => .ok hungry
    | some p => do
      let (keyword, keywords) ← Halt.ofMissing (ws.keywords.classify f.grammar p)
      let next := table.select p.kind (p.token.map Token.key) keyword
      return again (f.goto next) { ws with keywords := keywords } input
  | .report kind role name consume next =>
    match input with
    | none => .ok hungry
    | some p =>
      if consume && !p.kind.isOuter then
        let ws := ws.consume p
        .ok (again (f.goto next) (ws.report ((Term.wrap kind role p).named name)) none)
      else
        let position := if kind.isEnd then ws.lastEnd else p.start
        .ok (again (f.goto next) (ws.report ((Term.event kind role position).named name)) input)
  | .reportBefore kind name next => do
    let position := (ws.markedStart?.or (input.map Phrase.start)).getD ws.lastEnd
    let ws ← Halt.ofMisuse (ws.reportAtMark ((Term.event kind .unknown position).named name))
    return again (f.goto next) ws input
  | .reportError code args next =>
    match input with
    | none => .ok hungry
    | some p =>
      let args := if args.isEmpty then [p.text] else args
      .ok (again (f.goto next) (ws.reportError code args p.start p.stop) input)
  | .recoverySetup test next => .ok (again { f.goto next with recoveryTest := some test } ws input)
  | .recoveryVote _ next => .ok (again (f.goto next) ws input)
  | .recoveryChoice normal recovery =>
    if f.activeChoice = some f.current then
      .ok (again { f.goto recovery with activeChoice := none } { ws with recovering := false }
        input)
    else if ws.recovering then .ok (again (f.goto recovery) ws input)
    else
      match input with
      | none => .ok hungry
      | some p => do
        match ← Halt.ofMissing (enclosingVote ws p below) with
        | some below =>
          return ⟨.again (.rule (f.goto recovery)), below, { ws with recovering := true }, input⟩
        | none => return again (f.goto normal) ws input
  | .popKeywords next =>
    let (f, ws) := f.dropKeywords ws
    .ok (again (f.goto next) ws input)
  | .done success => do
    let ws ← Halt.ofMisuse (f.leave ws)
    return ⟨.leave (.ofSuccess success), below, ws, input⟩

/-- One step: the frame is entered first if it has not been. -/
def step (f : RuleFrame) (below : List Activation) (ws : Workspace) (input : Cell Phrase)
    (result : CallResult) : Except Halt Turn := do
  let (f, ws) := if f.entered then (f, ws) else f.enter ws
  let a ← Halt.ofMissing (f.grammar.action f.current)
  f.act below ws input result a

end RuleFrame

end TermStream
