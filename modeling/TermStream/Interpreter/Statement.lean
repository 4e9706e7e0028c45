import TermStream.Interpreter.Frame

namespace TermStream

namespace SequenceFrame

/-- A sequence runs statements up to the end of its block or of the input. Control phrases stand
between statements, and so does the end of a statement that a line break has already ended. -/
def step (f : SequenceFrame) (below : List Activation) (ws : Workspace) (input : Cell Phrase) :
    Turn :=
  match input with
  | none => ⟨.needInput (.sequence f), below, ws, input⟩
  | some p =>
    match p.kind with
    | .endBlock | .eof => ⟨.leave .success, below, ws, input⟩
    | .control => ⟨.again (.sequence f), below, ws.take p .control .control, none⟩
    | .statementEnd =>
      let ws := if p.hasToken then ws.take p .control .control else ws.consume p
      ⟨.again (.sequence f), below, ws, none⟩
    | _ => ⟨.call (.sequence f) (.statement (.new f.grammar f.context)), below, ws, input⟩

end SequenceFrame

namespace StatementFrame

/-- Passes over what comes before the first token of a statement, and then puts the start of the
statement in front of it. Without a token there is no statement. -/
def leading (f : StatementFrame) (below : List Activation) (ws : Workspace) (p : Phrase) :
    Except Halt Turn :=
  match p.kind with
  | .ignorable | .softStatementEnd => .ok ⟨.again (.statement f), below, ws.skip p, none⟩
  | .control | .statementEnd | .endBlock | .eof => do
    let ws ← Halt.ofMisuse ws.popMark
    return ⟨.leave .none, below, ws, some p⟩
  | .significant | .startBlock => do
    let start := ws.markedStart?.getD p.start
    let ws ← Halt.ofMisuse (ws.reportStatementStart (.event .statementStart .unknown start))
    let ws ← Halt.ofMisuse ws.popMark
    let entry ← Halt.ofMissing (RuleFrame.ofContext f.grammar f.context)
    return ⟨.call (.statement { f with phase := .body }) (.rule entry), below, ws, some p⟩

/-- Passes over what the actions of the statement have left, up to the end of the statement. The
first token left over is an error if the actions have succeeded. -/
def tail (f : StatementFrame) (below : List Activation) (ws : Workspace) (p : Phrase) : Turn :=
  let finish : Turn :=
    let role := if p.hasToken then .separator else .unknown
    ⟨.leave .success, below, ws.take p .statementEnd role, none⟩
  match p.kind with
  | .ignorable => ⟨.again (.statement f), below, ws.skip p, none⟩
  | .softStatementEnd =>
    if ws.softEndEnabled then finish
    else ⟨.again (.statement f), below, ws.skip p, none⟩
  | .statementEnd => finish
  | .endBlock | .eof | .control =>
    ⟨.leave .success, below, ws.report (.event .statementEnd .unknown p.start), some p⟩
  | .startBlock =>
    ⟨.call (.statement f) (.block (.new f.grammar f.context)), below, ws, some p⟩
  | .significant =>
    let first := f.ruleSucceeded && !f.reportedLeftover
    let ws := if first then ws.reportError Problem.unexpectedToken [p.text] p.start p.stop else ws
    let f := { f with reportedLeftover := f.reportedLeftover || first }
    ⟨.again (.statement f), below, ws.take p .ignorable .skipped, none⟩

def step (f : StatementFrame) (below : List Activation) (ws : Workspace) (input : Cell Phrase)
    (result : CallResult) : Except Halt Turn :=
  match f.phase with
  | .start => .ok ⟨.again (.statement { f with phase := .leading }), below, ws.pushMark, input⟩
  | .leading =>
    match input with
    | none => .ok ⟨.needInput (.statement f), below, ws, input⟩
    | some p => f.leading below ws p
  | .body =>
    let f := { f with ruleSucceeded := result == .success, phase := .tail }
    .ok ⟨.again (.statement f), below, { ws with recovering := false }, input⟩
  | .tail =>
    match input with
    | none => .ok ⟨.needInput (.statement f), below, ws, input⟩
    | some p => .ok (f.tail below ws p)

end StatementFrame

namespace BlockFrame

/-- A block is an opening brace, a sequence and a closing brace. Inside it line breaks end
statements again, whatever the enclosing rules say. -/
def step (f : BlockFrame) (below : List Activation) (ws : Workspace) (input : Cell Phrase) : Turn :=
  match f.phase with
  | .opening =>
    match input with
    | none => ⟨.needInput (.block f), below, ws, input⟩
    | some p =>
      if p.kind ≠ .startBlock then ⟨.leave .failure, below, ws, input⟩
      else
        let f := { f with savedSoftEnd := ws.softEndDisabled, phase := .body }
        let ws := { ws.take p .blockStart .separator with softEndDisabled := 0 }
        ⟨.call (.block f) (.sequence ⟨f.grammar, f.context⟩), below, ws, none⟩
  | .body => ⟨.again (.block { f with phase := .closing }), below, ws, input⟩
  | .closing =>
    match input with
    | none => ⟨.needInput (.block f), below, ws, input⟩
    | some p =>
      let (ws, input) :=
        if p.kind = .endBlock then (ws.take p .blockEnd .separator, none)
        else (ws.report (.event .blockEnd .unknown p.start), input)
      ⟨.leave .success, below, { ws with softEndDisabled := f.savedSoftEnd }, input⟩

end BlockFrame

end TermStream
