import TermStream.Interpreter.Document

namespace TermStream.DocumentFrame

/-- Whether a step in this phase looks at the current phrase. -/
def Reads (f : DocumentFrame) : Prop :=
  match f.phase with
  | .leading | .properties | .expectString _ | .body _ _ => True
  | _ => False

inductive Turns (f : DocumentFrame) (below : List Activation) (ws : Workspace) :
    Cell Phrase → Turn → Prop where
  | hungry (hp : f.Reads) : Turns f below ws none ⟨.needInput (.document f), below, ws, none⟩
  | script (input : Cell Phrase) (hp : f.phase = .start)
      (hs : (ws.forced && ws.grammar.any Grammar.isScript) = true) :
      Turns f below ws input ((f.goto .selectGrammar).stay below ws input)
  | mark (input : Cell Phrase) (hp : f.phase = .start)
      (hs : (ws.forced && ws.grammar.any Grammar.isScript) = false) :
      Turns f below ws input ((f.goto .leading).stay below ws.pushMark input)
  | passLeading (p : Phrase) (hp : f.phase = .leading)
      (hk : p.kind = .ignorable ∨ p.kind = .softStatementEnd) :
      Turns f below ws (some p) (f.stay below (ws.skip p) none)
  | declare (p : Phrase) (ws₁ ws₂ : Workspace) (hp : f.phase = .leading)
      (hk : p.kind = .significant) (hw : p.isWord doctypeKeyword = true)
      (hs : ws.reportStatementStart
        (.event .statementStart .unknown (ws.markedStart?.getD p.start)) = .ok ws₁)
      (hm : ws₁.popMark = .ok ws₂) :
      Turns f below ws (some p) ((f.goto .properties).stay below
        ((ws₂.report ((Term.event .objectStart .unknown p.start).named (some doctypeName))).take p
          .structural .keyword) none)
  | select (p : Phrase) (ws₁ : Workspace) (hp : f.phase = .leading)
      (hk : p.kind ≠ .ignorable ∧ p.kind ≠ .softStatementEnd)
      (hw : p.kind = .significant → p.isWord doctypeKeyword = false) (hm : ws.popMark = .ok ws₁) :
      Turns f below ws (some p) ((f.goto .selectGrammar).stay below ws₁ (some p))
  | passProperties (p : Phrase) (hp : f.phase = .properties) (hk : p.kind = .ignorable) :
      Turns f below ws (some p) (f.stay below (ws.skip p) none)
  | word (p : Phrase) (property : DoctypeProperty) (hp : f.phase = .properties)
      (hk : p.kind = .significant) (hw : p.isWord property.keyword = true)
      (hs : property ≠ .systemId) :
      Turns f below ws (some p)
        ((f.goto (.expectString property)).stay below (ws.take p .structural .keyword) none)
  | systemId (p : Phrase) (hp : f.phase = .properties) (hk : p.kind = .significant)
      (hs : p.isString = true) :
      Turns f below ws (some p)
        ((f.reportString ws p .systemId).1.stay below (f.reportString ws p .systemId).2 none)
  | leftover (p : Phrase) (hp : f.phase = .properties) (hk : p.kind = .significant)
      (hs : p.isString = false) :
      Turns f below ws (some p) (f.stay below
        ((ws.reportError Problem.unexpectedToken [p.text] p.start p.stop).take p
          .ignorable .skipped) none)
  | finish (p : Phrase) (hp : f.phase = .properties)
      (hk : p.kind = .statementEnd ∨ p.kind = .softStatementEnd) :
      Turns f below ws (some p) ((f.goto .selectGrammar).stay below
        ((ws.report (.event .objectEnd .unknown ws.lastEnd)).take p .statementEnd .separator) none)
  | breakOff (p : Phrase) (hp : f.phase = .properties)
      (hk : p.kind ≠ .ignorable ∧ p.kind ≠ .significant ∧ p.kind ≠ .statementEnd ∧
        p.kind ≠ .softStatementEnd) :
      Turns f below ws (some p) ((f.goto .selectGrammar).stay below
        ((ws.report (.event .objectEnd .unknown ws.lastEnd)).report
          (.event .statementEnd .unknown p.start)) (some p))
  | passExpect (p : Phrase) (property : DoctypeProperty) (hp : f.phase = .expectString property)
      (hk : p.kind = .ignorable) :
      Turns f below ws (some p) (f.stay below (ws.skip p) none)
  | string (p : Phrase) (property : DoctypeProperty) (hp : f.phase = .expectString property)
      (hk : p.kind = .significant) (hs : p.isString = true) :
      Turns f below ws (some p) (((f.reportString ws p property).1.goto .properties).stay below
        (f.reportString ws p property).2 none)
  | missing (p : Phrase) (property : DoctypeProperty) (hp : f.phase = .expectString property)
      (hk : p.kind ≠ .ignorable) (hs : p.kind = .significant → p.isString = false) :
      Turns f below ws (some p) ((f.goto .properties).stay below
        (ws.reportError Problem.missingDoctypeString [property.keyword] p.start p.stop) (some p))
  | known (input : Cell Phrase) (hp : f.phase = .selectGrammar) (hg : ws.grammar.isSome = true) :
      Turns f below ws input ((f.goto .loaded).stay below ws input)
  | request (input : Cell Phrase) (hp : f.phase = .selectGrammar) (hg : ws.grammar = none) :
      Turns f below ws input ⟨.needResource (.document (f.goto .awaitGrammar)), below,
        { ws with request := some ⟨f.publicId, f.systemId⟩ }, input⟩
  | wait (input : Cell Phrase) (hp : f.phase = .awaitGrammar) (hg : ws.grammar = none) :
      Turns f below ws input ⟨.needResource (.document f), below, ws, input⟩
  | arrived (input : Cell Phrase) (hp : f.phase = .awaitGrammar) (hg : ws.grammar.isSome = true) :
      Turns f below ws input ((f.goto .loaded).stay below ws input)
  | absent (input : Cell Phrase) (hp : f.phase = .loaded) (hg : ws.grammar = none) :
      Turns f below ws input ⟨.needResource (.document (f.goto .awaitGrammar)), below, ws, input⟩
  | load (input : Cell Phrase) (g : Grammar) (hp : f.phase = .loaded) (hg : ws.grammar = some g) :
      Turns f below ws input
        ⟨.call (.document (f.goto (.body g (f.chooseContext (announce ws g) g).1)))
          (.sequence ⟨g, (f.chooseContext (announce ws g) g).1⟩), below,
          (f.chooseContext (announce ws g) g).2, input⟩
  | close (p : Phrase) (g : Grammar) (context : ContextId) (hp : f.phase = .body g context)
      (hk : p.kind = .eof) :
      Turns f below ws (some p) ⟨.leave .success, below, ws.take p .eof .unknown, none⟩
  | stray (p : Phrase) (g : Grammar) (context : ContextId) (hp : f.phase = .body g context)
      (hk : p.kind ≠ .eof) :
      Turns f below ws (some p)
        ⟨.call (.document f) (.sequence ⟨g, context⟩), below, ws.take p .control .control, none⟩

variable {f : DocumentFrame} {below : List Activation} {ws : Workspace} {input : Cell Phrase}
  {turn : Turn} {p : Phrase}

theorem leading_turns (hp : f.phase = .leading) (h : f.leading below ws p = .ok turn) :
    f.Turns below ws (some p) turn := by
  have hselect : ∀ (t : Turn), p.kind ≠ .ignorable ∧ p.kind ≠ .softStatementEnd →
      (p.kind = .significant → p.isWord doctypeKeyword = false) →
      (do let ws ← Halt.ofMisuse ws.popMark
          return (f.goto .selectGrammar).stay below ws (some p)) = Except.ok t →
      f.Turns below ws (some p) t := by
    intro t hk hw ht
    cases hm : ws.popMark with
    | error m => rw [hm] at ht; cases ht
    | ok ws₁ =>
      rw [hm] at ht
      cases ht
      exact .select p ws₁ hp hk hw hm
  unfold leading at h
  cases hk : p.kind with
  | ignorable =>
    simp only [hk] at h
    cases h
    exact .passLeading p hp (.inl hk)
  | softStatementEnd =>
    simp only [hk] at h
    cases h
    exact .passLeading p hp (.inr hk)
  | significant =>
    simp only [hk] at h
    split at h
    · next hw =>
      cases hs : ws.reportStatementStart
          (.event .statementStart .unknown (ws.markedStart?.getD p.start)) with
      | error m => simp only [hs] at h; cases h
      | ok ws₁ =>
        cases hm : ws₁.popMark with
        | error m =>
          simp only [hs, Halt.ofMisuse, bind, Except.bind, hm] at h
          cases h
        | ok ws₂ =>
          simp only [hs, Halt.ofMisuse, bind, Except.bind, hm] at h
          cases h
          exact .declare p ws₁ ws₂ hp hk hw hs hm
    · next hw => exact hselect turn (by simp [hk]) (fun _ => by simpa using hw) h
  | control | statementEnd | startBlock | endBlock | eof =>
    simp only [hk] at h
    exact hselect turn (by simp [hk]) (by simp [hk]) h

theorem properties_turns (hp : f.phase = .properties) :
    f.Turns below ws (some p) (f.properties below ws p) := by
  unfold properties
  cases hk : p.kind with
  | ignorable => exact .passProperties p hp hk
  | significant =>
    dsimp only
    split
    · next hw => exact .word p .publicId hp hk hw nofun
    · split
      · next hw => exact .word p .context hp hk hw nofun
      · split
        · next hs => exact .systemId p hp hk hs
        · next hs => exact .leftover p hp hk (by simpa using hs)
  | statementEnd => exact .finish p hp (.inl hk)
  | softStatementEnd => exact .finish p hp (.inr hk)
  | control | startBlock | endBlock | eof => exact .breakOff p hp (by simp [hk])

theorem expectString_turns {property : DoctypeProperty} (hp : f.phase = .expectString property) :
    f.Turns below ws (some p) (f.expectString below ws p property) := by
  unfold expectString
  split
  · next hk => exact .passExpect p property hp hk
  · next hk =>
    split
    · next hs =>
      obtain ⟨hk, hs⟩ := Bool.and_eq_true_iff.1 hs
      exact .string p property hp (by simpa using hk) hs
    · next hs => exact .missing p property hp hk (by simpa using hs)

theorem step_turns (h : f.step below ws input = .ok turn) : f.Turns below ws input turn := by
  unfold step at h
  cases hp : f.phase with
  | start =>
    simp only [hp] at h
    split at h
    · next hs => cases h; exact .script input hp hs
    · next hs => cases h; exact .mark input hp (by simpa using hs)
  | leading =>
    simp only [hp] at h
    cases input with
    | none => cases h; exact .hungry (by simp [Reads, hp])
    | some p => exact leading_turns hp h
  | properties =>
    simp only [hp] at h
    cases input with
    | none => cases h; exact .hungry (by simp [Reads, hp])
    | some p => cases h; exact properties_turns hp
  | expectString property =>
    simp only [hp] at h
    cases input with
    | none => cases h; exact .hungry (by simp [Reads, hp])
    | some p => cases h; exact expectString_turns hp
  | selectGrammar =>
    simp only [hp] at h
    split at h
    · next hg => cases h; exact .known input hp hg
    · next hg => cases h; exact .request input hp (by simpa using hg)
  | awaitGrammar =>
    simp only [hp] at h
    split at h
    · next hg => cases h; exact .wait input hp (by simpa using hg)
    · next hg => cases h; exact .arrived input hp (by cases hw : ws.grammar <;> simp_all)
  | loaded =>
    simp only [hp, loaded] at h
    split at h
    · next hg => cases h; exact .absent input hp hg
    · next g hg => cases h; exact .load input g hp hg
  | body g context =>
    simp only [hp] at h
    cases input with
    | none => cases h; exact .hungry (by simp [Reads, hp])
    | some p =>
      cases h
      unfold body
      split
      · next hk => exact .close p g context hp hk
      · next hk => exact .stray p g context hp hk

end TermStream.DocumentFrame
