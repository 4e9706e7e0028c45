import TermStream.Proofs.Interpreter.FrameResources

namespace TermStream

def Frame.grammar? : Frame → Option Grammar
  | .document f => match f.phase with
    | .body g _ => some g
    | _ => none
  | .sequence f => some f.grammar
  | .statement f => some f.grammar
  | .block f => some f.grammar
  | .rule f => some f.grammar

/-- The parts of its grammar that a frame refers to. A rule refers to the action it is at, to its
keywords, to its recovery test and to the choice it has voted for. -/
def Frame.targets : Frame → List MissingPart
  | .document f => match f.phase with
    | .body _ context => [⟨.context, context⟩]
    | _ => []
  | .sequence f => [⟨.context, f.context⟩]
  | .statement f => [⟨.context, f.context⟩]
  | .block f => [⟨.context, f.context⟩]
  | .rule f =>
    ⟨.action, f.current⟩ :: f.keywords.toList.map (⟨.keywordContext, ·⟩) ++
      f.recoveryTest.toList.map (⟨.action, ·⟩) ++ f.activeChoice.toList.map (⟨.action, ·⟩)

theorem RuleFrame.Fits.target_lt {f : RuleFrame} {grammar : Option Grammar} (h : f.Fits grammar)
    {part : MissingPart} (hp : part ∈ (Frame.rule f).targets) :
    part.index < f.grammar.count part.part := by
  simp only [Frame.targets, List.mem_append, List.mem_cons, List.mem_map, Option.mem_toList] at hp
  rcases hp with ((rfl | ⟨id, hid, rfl⟩) | ⟨id, hid, rfl⟩) | ⟨id, hid, rfl⟩
  · exact h.current_lt
  · exact h.keywords_lt id hid
  · exact h.test_lt id hid
  · exact h.choice_lt id hid

theorem Frame.Fits.target_lt {frame : Frame} {grammar : Option Grammar} (h : frame.Fits grammar)
    {part : MissingPart} (hp : part ∈ frame.targets) :
    ∃ g, frame.grammar? = some g ∧ grammar = some g ∧ part.index < g.count part.part := by
  cases frame with
  | document f =>
    cases hphase : f.phase with
    | body g context =>
      obtain ⟨hg, hlt⟩ := h g context hphase
      simp only [Frame.targets, hphase, List.mem_singleton] at hp
      subst hp
      exact ⟨g, by simp [Frame.grammar?, hphase], hg, hlt⟩
    | _ => simp [Frame.targets, hphase] at hp
  | sequence f =>
    obtain rfl := List.mem_singleton.1 hp
    exact ⟨f.grammar, rfl, h.1, h.2⟩
  | statement f =>
    obtain rfl := List.mem_singleton.1 hp
    exact ⟨f.grammar, rfl, h.1, h.2⟩
  | block f =>
    obtain rfl := List.mem_singleton.1 hp
    exact ⟨f.grammar, rfl, h.1, h.2⟩
  | rule f => exact ⟨f.grammar, rfl, h.grammar_eq, RuleFrame.Fits.target_lt h hp⟩

theorem Frame.Fits.contexts_lt {a : Activation} {grammar : Option Grammar}
    (h : a.frame.Fits grammar) {id : KeywordContextId} (hid : id ∈ a.contexts) :
    ∃ g, grammar = some g ∧ id < g.count .keywordContext := by
  obtain ⟨frame, result⟩ := a
  cases frame with
  | rule f =>
    have hf : f.Fits grammar := h
    simp only [Activation.contexts] at hid
    split at hid
    · exact ⟨f.grammar, hf.grammar_eq, hf.keywords_lt id (Option.mem_toList.1 hid)⟩
    · cases hid
  | _ => cases hid

namespace Interpreter

/-- What a sound interpreter holds is in the grammar of the document. -/
theorem Sound.target_lt {t : Interpreter} (h : t.Sound) {a : Activation} (ha : a ∈ t.stack)
    {part : MissingPart} (hp : part ∈ a.frame.targets) :
    ∃ g, a.frame.grammar? = some g ∧ t.workspace.grammar = some g ∧
      part.index < g.count part.part :=
  (h.fits a ha).target_lt hp

theorem Sound.keywords_lt {t : Interpreter} (h : t.Sound) {id : KeywordContextId}
    (hid : id ∈ t.workspace.keywords.contexts) :
    ∃ g, t.workspace.grammar = some g ∧ id < g.count .keywordContext := by
  have hc : t.workspace.keywords.contexts = t.stack.flatMap Activation.contexts :=
    (congrArg Resources.contexts h.resources).trans (held_contexts _)
  rw [hc] at hid
  obtain ⟨a, ha, hid⟩ := List.mem_flatMap.1 hid
  exact (h.fits a ha).contexts_lt hid

theorem Sound.parse_error {t : Interpreter} (h : t.Sound) {fuel : Nat} {input : Cell Phrase}
    {e : Halt} (he : (t.parse fuel input).1 = .error e) :
    e = .misuse (.notStarted .terms) ∨ e = .unfinished := by
  rw [parse] at he
  split at he
  · exact .inl (Except.error.inj he).symm
  · split at he
    · cases he
    · exact .inr ((h.run fuel input).2 e he)

/-- At any moment of a session with built grammars, whatever a frame refers to and every set of
keywords on the stack is in the grammar of the document, and so is whatever the parts of that
grammar refer to. No step and no call looks up anything that is missing. -/
theorem Session.lookups_succeed (calls : List Call) (hb : ∀ call ∈ calls, call.Builds) :
    let t := (Session.new.performAll calls).interpreter
    (∀ a ∈ t.stack, ∀ part ∈ a.frame.targets, ∃ g, a.frame.grammar? = some g ∧
        t.workspace.grammar = some g ∧ part.index < g.count part.part) ∧
      (∀ id ∈ t.workspace.keywords.contexts, ∃ g, t.workspace.grammar = some g ∧
        id < g.count .keywordContext) ∧
      (∀ g, t.workspace.grammar = some g → ∀ r ∈ g.references,
        r.target.index < g.count r.target.part) ∧
      ∀ (input : Cell Phrase) (part : MissingPart),
        (t.step input).1 ≠ .error (.missing part) ∧
          ∀ fuel, (t.parse fuel input).1 ≠ .error (.missing part) := by
  intro t
  have hs : t.Sound := (Session.new_sound.performAll hb).interpreter
  refine ⟨fun a ha part hp => hs.target_lt ha hp, fun id hid => hs.keywords_lt hid,
    fun g hg r hr => (hs.built g hg).index_lt hr, ?_⟩
  intro input part
  constructor
  · intro he
    obtain ⟨⟨progress, hp⟩, -⟩ := hs.steps (step_steps t input)
    rw [hp] at he
    cases he
  · intro fuel he
    rcases hs.parse_error he with h | h <;> cases h

/-- A grammar in which an inner rule asks the statement around it to recover, and the statement
votes for that at the word "then". -/
def votingGrammar : Grammar where
  systemId := "voting"
  isScript := true
  actions := #[
    .recoverySetup 4 1,
    .call 0 2 2,
    .recoveryChoice 3 3,
    .done true,
    .choice ⟨[], [(0, 5)], [], 3⟩,
    .recoveryVote 2 3,
    .recoveryChoice 3 3]
  rules := #[⟨"inner", .actions 6, true, none, false⟩]
  contexts := #[⟨"statement", 0, some 0⟩]
  defaultContext := 0
  keywords := #["then"]
  keywordContexts := #[⟨"words", [("then", 0)]⟩]
  errors := .nil

def votingCalls : List Call :=
  [.start "in", .force votingGrammar,
    .put (.ofToken .significant ⟨.simple .identifier, "then", .start, ⟨1, 5, 4⟩, .nil⟩),
    .parse 9, .read, .parse 3]

/-- After a vote the statement holds its keywords, its recovery test and the choice it voted for. -/
theorem Session.lookups_succeed_vote :
    (∀ call ∈ votingCalls, call.Builds) ∧
      let t := (Session.new.performAll votingCalls).interpreter
      t.workspace.keywords.contexts = [0] ∧
        t.stack.map (fun a => a.frame.targets.map MissingPart.index) =
          [[3], [1, 0, 4, 2], [0], [0], [0]] ∧
        (∀ a ∈ t.stack, ∀ part ∈ a.frame.targets, ∃ g, t.workspace.grammar = some g ∧
          part.index < g.count part.part) ∧
        ∀ part, (t.step none).1 ≠ .error (.missing part) := by
  have hb : ∀ call ∈ votingCalls, call.Builds := by
    intro call hc
    simp only [votingCalls, List.mem_cons, List.not_mem_nil, or_false] at hc
    rcases hc with rfl | rfl | rfl | rfl | rfl | rfl
    · trivial
    · exact Grammar.built_of_dangling? rfl
    · trivial
    · trivial
    · trivial
    · trivial
  obtain ⟨hframes, -, -, hsteps⟩ := Session.lookups_succeed votingCalls hb
  refine ⟨hb, by decide +kernel, by decide +kernel, ?_, fun part => (hsteps none part).1⟩
  intro a ha part hp
  obtain ⟨g, -, hg, hlt⟩ := hframes a ha part hp
  exact ⟨g, hg, hlt⟩

end Interpreter

end TermStream
