import TermStream.Interpreter.Frame

namespace TermStream

def doctypeKeyword : String := "doctype"

def doctypeName : StructuralName := .object "strata" "DoctypeDeclaration"

namespace Phrase

def isWord (p : Phrase) (word : String) : Bool :=
  match p.token with
  | some t => t.kind == .identifier && t.text == word
  | none => false

def isString (p : Phrase) : Bool :=
  match p.token with
  | some t => t.kind.isString
  | none => false

end Phrase

/-- The text after its first `n` bytes, if a character starts there. -/
def dropBytes? : Nat → List Char → Option (List Char)
  | 0, cs => some cs
  | _ + 1, [] => none
  | n + 1, c :: cs =>
    if c.utf8Size ≤ n + 1 then dropBytes? (n + 1 - c.utf8Size) cs else none

def dropEnding (ending cs : List Char) : List Char :=
  if ending.isSuffixOf cs then cs.take (cs.length - ending.length) else cs

/-- The text of a string between its delimiters, escapes and all. -/
def Token.stringBody? (t : Token) : Option String := do
  let delimiter ← t.key.delimiter?
  let lead := (t.key.lead.getD "").toList
  let body ← dropBytes? (Text.byteLength lead + Text.byteLength delimiter) t.text.toList
  return String.ofList (dropEnding delimiter body)

namespace DocumentFrame

def goto (f : DocumentFrame) (phase : DocumentPhase) : DocumentFrame := { f with phase := phase }

def stay (f : DocumentFrame) (below : List Activation) (ws : Workspace) (input : Cell Phrase) :
    Turn :=
  ⟨.again (.document f), below, ws, input⟩

def leading (f : DocumentFrame) (below : List Activation) (ws : Workspace) (p : Phrase) :
    Except Halt Turn :=
  let select : Except Halt Turn := do
    let ws ← Halt.ofMisuse ws.popMark
    return (f.goto .selectGrammar).stay below ws (some p)
  match p.kind with
  | .ignorable | .softStatementEnd => .ok (f.stay below (ws.skip p) none)
  | .significant =>
    if p.isWord doctypeKeyword then do
      let start := ws.markedStart?.getD p.start
      let ws ← Halt.ofMisuse (ws.reportStatementStart (.event .statementStart .unknown start))
      let ws ← Halt.ofMisuse ws.popMark
      let ws := ws.report ((Term.event .objectStart .unknown p.start).named (some doctypeName))
      return (f.goto .properties).stay below (ws.take p .structural .keyword) none
    else select
  | _ => select

def remember (f : DocumentFrame) (property : DoctypeProperty) (value : Option String)
    (start stop : Position) : DocumentFrame :=
  match property with
  | .publicId => { f with publicId := value }
  | .systemId => { f with systemId := value }
  | .context => { f with context := value.map (⟨·, start, stop⟩) }

def reportString (f : DocumentFrame) (ws : Workspace) (p : Phrase) (property : DoctypeProperty) :
    DocumentFrame × Workspace :=
  let name := StructuralName.property property.name false
  let ws := ws.report ((Term.event .propertyStart .unknown p.start).named (some name))
  let ws := ws.take p .value .primary
  let ws := ws.report (.event .propertyEnd .unknown ws.lastEnd)
  (f.remember property (p.token.bind Token.stringBody?) p.start ws.lastEnd, ws)

/-- Reads the declaration `doctype ["public" STRING] [STRING] ["context" STRING]` up to the end of
its statement. -/
def properties (f : DocumentFrame) (below : List Activation) (ws : Workspace) (p : Phrase) : Turn :=
  match p.kind with
  | .ignorable => f.stay below (ws.skip p) none
  | .significant =>
    if p.isWord DoctypeProperty.publicId.keyword then
      (f.goto (.expectString .publicId)).stay below (ws.take p .structural .keyword) none
    else if p.isWord DoctypeProperty.context.keyword then
      (f.goto (.expectString .context)).stay below (ws.take p .structural .keyword) none
    else if p.isString then
      let (f, ws) := f.reportString ws p .systemId
      f.stay below ws none
    else
      let ws := ws.reportError Problem.unexpectedToken [p.text] p.start p.stop
      f.stay below (ws.take p .ignorable .skipped) none
  | .statementEnd | .softStatementEnd =>
    let ws := ws.report (.event .objectEnd .unknown ws.lastEnd)
    (f.goto .selectGrammar).stay below (ws.take p .statementEnd .separator) none
  | _ =>
    let ws := ws.report (.event .objectEnd .unknown ws.lastEnd)
    let ws := ws.report (.event .statementEnd .unknown p.start)
    (f.goto .selectGrammar).stay below ws (some p)

def expectString (f : DocumentFrame) (below : List Activation) (ws : Workspace) (p : Phrase)
    (property : DoctypeProperty) : Turn :=
  if p.kind = .ignorable then f.stay below (ws.skip p) none
  else if p.kind = .significant && p.isString then
    let (f, ws) := f.reportString ws p property
    (f.goto .properties).stay below ws none
  else
    let ws := ws.reportError Problem.missingDoctypeString [property.keyword] p.start p.stop
    (f.goto .properties).stay below ws (some p)

/-- Reports that the grammar is there, unless it was forced and loaded without errors. -/
def announce (ws : Workspace) (g : Grammar) : Workspace :=
  if !ws.forced || !g.errors.isEmpty then
    let term := Term.event .grammarIsLoaded .unknown ws.lastEnd
    if g.errors.isEmpty then ws.report term
    else
      let error : Report :=
        ⟨Problem.grammarHasErrors, [g.systemId], .point ws.source ws.lastEnd⟩
      ws.report (term.withErrors (.explained error g.errors))
  else ws

/-- The context that the document has asked for. One that the grammar does not have is an error, and
then the default context is taken. -/
def chooseContext (f : DocumentFrame) (ws : Workspace) (g : Grammar) : ContextId × Workspace :=
  match f.context with
  | none => (g.defaultContext, ws)
  | some c =>
    match g.contextNamed? c.name with
    | some id => (id, ws)
    | none =>
      (g.defaultContext, ws.reportError Problem.unknownContext [c.name] c.start c.stop)

def loaded (f : DocumentFrame) (below : List Activation) (ws : Workspace) (input : Cell Phrase) :
    Turn :=
  match ws.grammar with
  | none => ⟨.needResource (.document (f.goto .awaitGrammar)), below, ws, input⟩
  | some g =>
    let (context, ws) := f.chooseContext (announce ws g) g
    ⟨.call (.document (f.goto (.body g context))) (.sequence ⟨g, context⟩), below, ws, input⟩

/-- Ends the document, or goes on after the end of a block that was never opened. -/
def body (f : DocumentFrame) (below : List Activation) (ws : Workspace) (p : Phrase) (g : Grammar)
    (context : ContextId) : Turn :=
  if p.kind = .eof then ⟨.leave .success, below, ws.take p .eof .unknown, none⟩
  else ⟨.call (.document f) (.sequence ⟨g, context⟩), below, ws.take p .control .control, none⟩

def step (f : DocumentFrame) (below : List Activation) (ws : Workspace) (input : Cell Phrase) :
    Except Halt Turn :=
  let withInput := fun (k : Phrase → Except Halt Turn) =>
    match input with
    | none => .ok ⟨.needInput (.document f), below, ws, input⟩
    | some p => k p
  match f.phase with
  | .start =>
    if ws.forced && (ws.grammar.any Grammar.isScript) then
      .ok ((f.goto .selectGrammar).stay below ws input)
    else .ok ((f.goto .leading).stay below ws.pushMark input)
  | .leading => withInput fun p => f.leading below ws p
  | .properties => withInput fun p => .ok (f.properties below ws p)
  | .expectString property => withInput fun p => .ok (f.expectString below ws p property)
  | .selectGrammar =>
    if ws.grammar.isSome then .ok ((f.goto .loaded).stay below ws input)
    else
      let ws := { ws with request := some ⟨f.publicId, f.systemId⟩ }
      .ok ⟨.needResource (.document (f.goto .awaitGrammar)), below, ws, input⟩
  | .awaitGrammar =>
    if ws.grammar.isNone then .ok ⟨.needResource (.document f), below, ws, input⟩
    else .ok ((f.goto .loaded).stay below ws input)
  | .loaded => .ok (f.loaded below ws input)
  | .body g context => withInput fun p => .ok (f.body below ws p g context)

end DocumentFrame

end TermStream
