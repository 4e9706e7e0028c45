import TermStream.Interpreter.Statement

namespace TermStream

namespace SequenceFrame

inductive Turns (f : SequenceFrame) (below : List Activation) (ws : Workspace) :
    Cell Phrase → Turn → Prop where
  | hungry : Turns f below ws none ⟨.needInput (.sequence f), below, ws, none⟩
  | close (p : Phrase) (hk : p.kind = .endBlock ∨ p.kind = .eof) :
      Turns f below ws (some p) ⟨.leave .success, below, ws, some p⟩
  | control (p : Phrase)
      (hk : p.kind = .control ∨ p.kind = .statementEnd ∧ p.hasToken = true) :
      Turns f below ws (some p) ⟨.again (.sequence f), below, ws.take p .control .control, none⟩
  /-- The end of a statement without a token is the only phrase that leaves no term. -/
  | drop (p : Phrase) (hk : p.kind = .statementEnd) (ht : p.hasToken = false) :
      Turns f below ws (some p) ⟨.again (.sequence f), below, ws.consume p, none⟩
  | statement (p : Phrase)
      (hk : p.kind = .significant ∨ p.kind = .startBlock ∨ p.kind = .ignorable ∨
        p.kind = .softStatementEnd) :
      Turns f below ws (some p)
        ⟨.call (.sequence f) (.statement (.new f.grammar f.context)), below, ws, some p⟩

theorem step_turns (f : SequenceFrame) (below : List Activation) (ws : Workspace)
    (input : Cell Phrase) : f.Turns below ws input (f.step below ws input) := by
  unfold step
  cases input with
  | none => exact .hungry
  | some p =>
    dsimp only
    cases hk : p.kind with
    | endBlock => exact .close p (.inl hk)
    | eof => exact .close p (.inr hk)
    | control => exact .control p (.inl hk)
    | statementEnd =>
      cases ht : p.hasToken with
      | true => exact .control p (.inr ⟨hk, ht⟩)
      | false => exact .drop p hk ht
    | significant | startBlock | ignorable | softStatementEnd => exact .statement p (by simp [hk])

end SequenceFrame

namespace StatementFrame

inductive Turns (f : StatementFrame) (below : List Activation) (ws : Workspace)
    (result : CallResult) : Cell Phrase → Turn → Prop where
  | hungry (hp : f.phase = .leading ∨ f.phase = .tail) :
      Turns f below ws result none ⟨.needInput (.statement f), below, ws, none⟩
  | mark (input : Cell Phrase) (hp : f.phase = .start) :
      Turns f below ws result input
        ⟨.again (.statement { f with phase := .leading }), below, ws.pushMark, input⟩
  | passLeading (p : Phrase) (hp : f.phase = .leading)
      (hk : p.kind = .ignorable ∨ p.kind = .softStatementEnd) :
      Turns f below ws result (some p) ⟨.again (.statement f), below, ws.skip p, none⟩
  | giveUp (p : Phrase) (ws₁ : Workspace) (hp : f.phase = .leading)
      (hk : p.kind = .control ∨ p.kind = .statementEnd ∨ p.kind = .endBlock ∨ p.kind = .eof)
      (hm : ws.popMark = .ok ws₁) :
      Turns f below ws result (some p) ⟨.leave .none, below, ws₁, some p⟩
  | enter (p : Phrase) (ws₁ ws₂ : Workspace) (entry : RuleFrame) (hp : f.phase = .leading)
      (hk : p.kind = .significant ∨ p.kind = .startBlock)
      (hs : ws.reportStatementStart
        (.event .statementStart .unknown (ws.markedStart?.getD p.start)) = .ok ws₁)
      (hm : ws₁.popMark = .ok ws₂) (he : RuleFrame.ofContext f.grammar f.context = .ok entry) :
      Turns f below ws result (some p)
        ⟨.call (.statement { f with phase := .body }) (.rule entry), below, ws₂, some p⟩
  | body (input : Cell Phrase) (hp : f.phase = .body) :
      Turns f below ws result input
        ⟨.again (.statement { f with ruleSucceeded := result == .success, phase := .tail }), below,
          { ws with recovering := false }, input⟩
  | passTail (p : Phrase) (hp : f.phase = .tail)
      (hk : p.kind = .ignorable ∨ p.kind = .softStatementEnd ∧ ws.softEndEnabled = false) :
      Turns f below ws result (some p) ⟨.again (.statement f), below, ws.skip p, none⟩
  | finish (p : Phrase) (role : Role) (hp : f.phase = .tail)
      (hk : p.kind = .statementEnd ∨ p.kind = .softStatementEnd ∧ ws.softEndEnabled = true)
      (hr : role = if p.hasToken then .separator else .unknown) :
      Turns f below ws result (some p)
        ⟨.leave .success, below, ws.take p .statementEnd role, none⟩
  | breakOff (p : Phrase) (hp : f.phase = .tail)
      (hk : p.kind = .endBlock ∨ p.kind = .eof ∨ p.kind = .control) :
      Turns f below ws result (some p)
        ⟨.leave .success, below, ws.report (.event .statementEnd .unknown p.start), some p⟩
  | block (p : Phrase) (hp : f.phase = .tail) (hk : p.kind = .startBlock) :
      Turns f below ws result (some p)
        ⟨.call (.statement f) (.block (.new f.grammar f.context)), below, ws, some p⟩
  | leftover (p : Phrase) (first : Bool) (hp : f.phase = .tail) (hk : p.kind = .significant)
      (hf : first = (f.ruleSucceeded && !f.reportedLeftover)) :
      Turns f below ws result (some p)
        ⟨.again (.statement { f with reportedLeftover := f.reportedLeftover || first }), below,
          (if first then ws.reportError Problem.unexpectedToken [p.text] p.start p.stop
            else ws).take p .ignorable .skipped, none⟩

variable {f : StatementFrame} {below : List Activation} {ws : Workspace} {input : Cell Phrase}
  {result : CallResult} {turn : Turn} {p : Phrase}

theorem leading_turns (hp : f.phase = .leading) (h : f.leading below ws p = .ok turn) :
    f.Turns below ws result (some p) turn := by
  unfold leading at h
  cases hk : p.kind with
  | ignorable => simp only [hk] at h; cases h; exact .passLeading p hp (.inl hk)
  | softStatementEnd => simp only [hk] at h; cases h; exact .passLeading p hp (.inr hk)
  | control | statementEnd | endBlock | eof =>
    simp only [hk] at h
    cases hm : ws.popMark with
    | error m => rw [hm] at h; cases h
    | ok ws₁ =>
      rw [hm] at h
      cases h
      exact .giveUp p ws₁ hp (by simp [hk]) hm
  | significant | startBlock =>
    simp only [hk] at h
    cases hs : ws.reportStatementStart
        (.event .statementStart .unknown (ws.markedStart?.getD p.start)) with
    | error m => rw [hs] at h; cases h
    | ok ws₁ =>
      cases hm : ws₁.popMark with
      | error m => simp only [hs, Halt.ofMisuse, bind, Except.bind, hm] at h; cases h
      | ok ws₂ =>
        cases he : RuleFrame.ofContext f.grammar f.context with
        | error m =>
          simp only [hs, Halt.ofMisuse, Halt.ofMissing, bind, Except.bind, hm, he] at h
          cases h
        | ok entry =>
          simp only [hs, Halt.ofMisuse, Halt.ofMissing, bind, Except.bind, hm, he] at h
          cases h
          exact .enter p ws₁ ws₂ entry hp (by simp [hk]) hs hm he

theorem tail_turns (hp : f.phase = .tail) :
    f.Turns below ws result (some p) (f.tail below ws p) := by
  unfold tail
  cases hk : p.kind with
  | ignorable => exact .passTail p hp (.inl hk)
  | softStatementEnd =>
    dsimp only
    split
    · next hs => exact .finish p _ hp (.inr ⟨hk, hs⟩) rfl
    · next hs => exact .passTail p hp (.inr ⟨hk, by simpa using hs⟩)
  | statementEnd => exact .finish p _ hp (.inl hk) rfl
  | endBlock | eof | control => exact .breakOff p hp (by simp [hk])
  | startBlock => exact .block p hp hk
  | significant => exact .leftover p _ hp hk rfl

theorem step_turns (h : f.step below ws input result = .ok turn) :
    f.Turns below ws result input turn := by
  unfold step at h
  cases hp : f.phase with
  | start => simp only [hp] at h; cases h; exact .mark input hp
  | leading =>
    simp only [hp] at h
    cases input with
    | none => cases h; exact .hungry (.inl hp)
    | some p => exact leading_turns hp h
  | body => simp only [hp] at h; cases h; exact .body input hp
  | tail =>
    simp only [hp] at h
    cases input with
    | none => cases h; exact .hungry (.inr hp)
    | some p => cases h; exact tail_turns hp

end StatementFrame

namespace BlockFrame

inductive Turns (f : BlockFrame) (below : List Activation) (ws : Workspace) :
    Cell Phrase → Turn → Prop where
  | hungry (hp : f.phase ≠ .body) :
      Turns f below ws none ⟨.needInput (.block f), below, ws, none⟩
  | refuse (p : Phrase) (hp : f.phase = .opening) (hk : p.kind ≠ .startBlock) :
      Turns f below ws (some p) ⟨.leave .failure, below, ws, some p⟩
  | enter (p : Phrase) (hp : f.phase = .opening) (hk : p.kind = .startBlock) :
      Turns f below ws (some p)
        ⟨.call (.block { f with savedSoftEnd := ws.softEndDisabled, phase := .body })
            (.sequence ⟨f.grammar, f.context⟩), below,
          { ws.take p .blockStart .separator with softEndDisabled := 0 }, none⟩
  | body (input : Cell Phrase) (hp : f.phase = .body) :
      Turns f below ws input ⟨.again (.block { f with phase := .closing }), below, ws, input⟩
  | close (p : Phrase) (hp : f.phase = .closing) (hk : p.kind = .endBlock) :
      Turns f below ws (some p)
        ⟨.leave .success, below,
          { ws.take p .blockEnd .separator with softEndDisabled := f.savedSoftEnd }, none⟩
  | breakOff (p : Phrase) (hp : f.phase = .closing) (hk : p.kind ≠ .endBlock) :
      Turns f below ws (some p)
        ⟨.leave .success, below,
          { ws.report (.event .blockEnd .unknown p.start) with softEndDisabled := f.savedSoftEnd },
          some p⟩

theorem step_turns (f : BlockFrame) (below : List Activation) (ws : Workspace)
    (input : Cell Phrase) : f.Turns below ws input (f.step below ws input) := by
  unfold step
  cases hp : f.phase with
  | opening =>
    cases input with
    | none => exact .hungry (by simp [hp])
    | some p =>
      dsimp only
      split
      · next hk => exact .refuse p hp hk
      · next hk => exact .enter p hp (by simpa using hk)
  | body => exact .body input hp
  | closing =>
    cases input with
    | none => exact .hungry (by simp [hp])
    | some p =>
      dsimp only
      by_cases hk : p.kind = .endBlock
      · rw [if_pos hk]
        exact .close p hp hk
      · rw [if_neg hk]
        exact .breakOff p hp hk

end BlockFrame

end TermStream
