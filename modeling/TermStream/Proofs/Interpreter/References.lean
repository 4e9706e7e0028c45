import TermStream.Proofs.Interpreter.Shape

namespace TermStream

/-- All that a running rule refers to is in its grammar. It has keywords on the stack only if it was
entered with them. -/
structure RuleFrame.Fits (f : RuleFrame) (grammar : Option Grammar) : Prop where
  grammar_eq : grammar = some f.grammar
  current_lt : f.current < f.grammar.actions.size
  keywords_lt : ∀ k, f.keywords = some k → k < f.grammar.keywordContexts.size
  test_lt : ∀ test, f.recoveryTest = some test → test < f.grammar.actions.size
  choice_lt : ∀ choice, f.activeChoice = some choice → choice < f.grammar.actions.size
  pushed : f.keywordsPushed = true → f.entered = true ∧ f.keywords.isSome = true

def Frame.Fits (grammar : Option Grammar) : Frame → Prop
  | .document f =>
    ∀ g context, f.phase = .body g context → grammar = some g ∧ context < g.contexts.size
  | .sequence f => grammar = some f.grammar ∧ f.context < f.grammar.contexts.size
  | .statement f => grammar = some f.grammar ∧ f.context < f.grammar.contexts.size
  | .block f => grammar = some f.grammar ∧ f.context < f.grammar.contexts.size
  | .rule f => f.Fits grammar

def Move.Fits (grammar : Option Grammar) : Move → Prop
  | .again f | .needInput f | .needResource f => f.Fits grammar
  | .call f child => f.Fits grammar ∧ child.Fits grammar
  | .leave _ => True

theorem Frame.Fits.of_none {f : Frame} (grammar : Option Grammar) (h : f.Fits none) :
    f.Fits grammar := by
  cases f with
  | document f => exact fun g context hp => absurd (h g context hp).1 nofun
  | sequence f => exact absurd h.1 nofun
  | statement f => exact absurd h.1 nofun
  | block f => exact absurd h.1 nofun
  | rule f => exact absurd h.grammar_eq nofun

/-- The grammar of the document, what it has asked for, and whether the grammar was forced. -/
def Workspace.grammars (ws : Workspace) : Option Grammar × Option GrammarReference × Bool :=
  (ws.grammar, ws.request, ws.forced)

namespace Workspace

variable {ws ws₁ : Workspace} {t : Term}

theorem grammars_eq_iff : ws₁.grammars = ws.grammars ↔
    ws₁.grammar = ws.grammar ∧ ws₁.request = ws.request ∧ ws₁.forced = ws.forced := by
  simp only [grammars, Prod.mk.injEq]

theorem grammars_popMark (h : ws.popMark = .ok ws₁) : ws₁.grammars = ws.grammars := by
  obtain ⟨q, -, rfl⟩ := popMark_ok h
  rfl

theorem grammars_reportAtMark (h : ws.reportAtMark t = .ok ws₁) : ws₁.grammars = ws.grammars := by
  rcases reportAtMark_ok h with rfl | ⟨q, -, rfl⟩ <;> rfl

theorem grammars_reportStatementStart (h : ws.reportStatementStart t = .ok ws₁) :
    ws₁.grammars = ws.grammars := by
  obtain ⟨q, -, rfl⟩ := reportStatementStart_ok h
  rfl

end Workspace

@[simp] theorem DocumentFrame.grammars_chooseContext (f : DocumentFrame) (ws : Workspace)
    (g g' : Grammar) : (f.chooseContext (announce ws g) g').2.grammars = ws.grammars := by
  have ha : (announce ws g).grammars = ws.grammars := by
    unfold announce
    split
    · dsimp only
      split <;> rfl
    · rfl
  unfold chooseContext
  split
  · exact ha
  · split
    · exact ha
    · exact ha

variable {below : List Activation} {ws : Workspace} {input : Cell Phrase} {turn : Turn}
  {result : CallResult}

@[simp] theorem RuleFrame.grammars_dropKeywords (f : RuleFrame) (ws : Workspace) :
    (f.dropKeywords ws).2.grammars = ws.grammars := by
  unfold dropKeywords
  split <;> rfl

theorem RuleFrame.grammars_leave {f : RuleFrame} {ws₁ : Workspace} (h : f.leave ws = .ok ws₁) :
    ws₁.grammars = ws.grammars := by
  obtain ⟨ws₀, hm, rfl⟩ := leave_ok h
  have hw : ws₀.grammars = ws.grammars := by
    rcases hm with ⟨-, hp⟩ | ⟨-, rfl⟩
    · exact Workspace.grammars_popMark hp
    · rfl
  split
  · exact (f.grammars_dropKeywords ws₀).trans hw
  · exact (f.grammars_dropKeywords ws₀).trans hw

@[simp] theorem RuleFrame.grammars_entering (f : RuleFrame) (ws : Workspace) :
    (f.entering ws).2.grammars = ws.grammars := by
  unfold entering
  split
  · rfl
  · unfold enter
    cases f.marked <;> cases f.keywords <;> cases f.disablesSoftEnd <;> rfl

/-- A step changes neither the grammar nor what the document has asked for, but for the step that
asks. -/
theorem Frame.Turns.grammars_eq {frame : Frame} (h : Frame.Turns below ws result frame input turn) :
    turn.workspace.grammars = ws.grammars ∨
      ∃ f, frame = .document f ∧ ws.grammar = none ∧
        turn = ⟨.needResource (.document (f.goto .awaitGrammar)), below,
          { ws with request := some ⟨f.publicId, f.systemId⟩ }, input⟩ := by
  cases h with
  | document f h =>
    cases h with
    | declare p ws₁ ws₂ hp hk hw hs hm =>
      exact .inl ((Workspace.grammars_popMark hm).trans
        (Workspace.grammars_reportStatementStart hs))
    | select p ws₁ hp hk hw hm => exact .inl (Workspace.grammars_popMark hm)
    | load input g hp hg => exact .inl (f.grammars_chooseContext ws g g)
    | request input hp hg => exact .inr ⟨f, rfl, hg, rfl⟩
    | _ => exact .inl rfl
  | sequence f h => cases h <;> exact .inl rfl
  | statement f h =>
    cases h with
    | giveUp p ws₁ hp hk hm => exact .inl (Workspace.grammars_popMark hm)
    | enter p ws₁ ws₂ entry hp hk hs hm he =>
      exact .inl ((Workspace.grammars_popMark hm).trans
        (Workspace.grammars_reportStatementStart hs))
    | leftover p first hp hk hf => cases first <;> exact .inl rfl
    | _ => exact .inl rfl
  | block f h => cases h <;> exact .inl rfl
  | rule f a ha h =>
    refine .inl (Eq.trans ?_ (f.grammars_entering ws))
    cases h with
    | before input kind name next ws₁ hr => exact Workspace.grammars_reportAtMark hr
    | popKeywords input next => exact RuleFrame.grammars_dropKeywords _ _
    | done input success ws₁ hl => exact RuleFrame.grammars_leave hl
    | _ => rfl

theorem Frame.Turns.grammar_eq {frame : Frame} (h : Frame.Turns below ws result frame input turn) :
    turn.workspace.grammar = ws.grammar := by
  rcases h.grammars_eq with he | ⟨f, -, -, rfl⟩
  · exact (Workspace.grammars_eq_iff.1 he).1
  · rfl

theorem Frame.Turns.forced_eq {frame : Frame} (h : Frame.Turns below ws result frame input turn) :
    turn.workspace.forced = ws.forced := by
  rcases h.grammars_eq with he | ⟨f, -, -, rfl⟩
  · exact (Workspace.grammars_eq_iff.1 he).2.2
  · rfl

variable {g : Grammar}

theorem RuleFrame.fits_ofContext {id : ContextId} {f : RuleFrame} (hb : g.Built)
    (h : RuleFrame.ofContext g id = .ok f) : f.Fits (some g) := by
  unfold RuleFrame.ofContext at h
  cases hc : g.context id with
  | error m => rw [hc] at h; cases h
  | ok c =>
    rw [hc] at h
    cases h
    exact ⟨rfl, hb.contextEntry_lt hc, fun k hk => hb.contextKeywords_lt hc hk, nofun, nofun, nofun⟩

theorem Frame.fits_ofRule {id : RuleId} {f : Frame} (hb : g.Built) (h : Frame.ofRule g id = .ok f) :
    f.Fits (some g) := by
  unfold Frame.ofRule at h
  cases hr : g.rule id with
  | error m => rw [hr] at h; cases h
  | ok rule =>
    simp only [hr, bind, Except.bind] at h
    cases hbody : rule.body with
    | actions entry =>
      simp only [hbody] at h
      cases h
      exact ⟨rfl, hb.entry_lt hr hbody, fun k hk => hb.ruleKeywords_lt hr hk, nofun, nofun,
        nofun⟩
    | block context =>
      simp only [hbody] at h
      cases h
      exact ⟨rfl, hb.blockContext_lt hr hbody⟩

theorem DocumentFrame.chooseContext_lt (f : DocumentFrame) (ws : Workspace) (hb : g.Built) :
    (f.chooseContext ws g).1 < g.contexts.size := by
  unfold chooseContext
  split
  · exact hb.defaultContext_lt
  · split
    · next hc => exact Grammar.contextNamed?_lt hc
    · exact hb.defaultContext_lt

theorem DocumentFrame.Turns.fits {f : DocumentFrame} (h : f.Turns below ws input turn)
    (hb : ∀ g, ws.grammar = some g → g.Built) (hf : (Frame.document f).Fits ws.grammar) :
    turn.move.Fits ws.grammar := by
  cases h with
  | load input g hp hg =>
    have hlt := f.chooseContext_lt (announce ws g) (hb g hg)
    refine ⟨fun g' context hp => ?_, hg, hlt⟩
    cases hp
    exact ⟨hg, hlt⟩
  | stray p g context hp hk => exact ⟨hf, hf g context hp⟩
  | close p g context hp hk => trivial
  | hungry hp => exact hf
  | passLeading p hp hk => exact hf
  | passProperties p hp hk => exact hf
  | leftover p hp hk hs => exact hf
  | passExpect p property hp hk => exact hf
  | wait input hp hg => exact hf
  | systemId p hp hk hs =>
    intro g context hp'
    exact absurd (hp.symm.trans ((f.phase_reportString ws p .systemId).symm.trans hp')) nofun
  | _ => exact nofun

theorem SequenceFrame.Turns.fits {f : SequenceFrame} (h : f.Turns below ws input turn)
    (hf : (Frame.sequence f).Fits ws.grammar) : turn.move.Fits ws.grammar := by
  cases h with
  | statement p hk => exact ⟨hf, hf⟩
  | close p hk => trivial
  | _ => exact hf

theorem StatementFrame.Turns.fits {f : StatementFrame} (h : f.Turns below ws result input turn)
    (hb : ∀ g, ws.grammar = some g → g.Built) (hf : (Frame.statement f).Fits ws.grammar) :
    turn.move.Fits ws.grammar := by
  cases h with
  | enter p ws₁ ws₂ entry hp hk hs hm he =>
    refine ⟨hf, ?_⟩
    have hfit := RuleFrame.fits_ofContext (hb _ hf.1) he
    rwa [← hf.1] at hfit
  | block p hp hk => exact ⟨hf, hf⟩
  | giveUp p ws₁ hp hk hm => trivial
  | finish p role hp hk hr => trivial
  | breakOff p hp hk => trivial
  | _ => exact hf

theorem BlockFrame.Turns.fits {f : BlockFrame} (h : f.Turns below ws input turn)
    (hf : (Frame.block f).Fits ws.grammar) : turn.move.Fits ws.grammar := by
  cases h with
  | enter p hp hk => exact ⟨hf, hf⟩
  | refuse p hp hk => trivial
  | close p hp hk => trivial
  | breakOff p hp hk => trivial
  | _ => exact hf

namespace RuleFrame

variable {f : RuleFrame} {grammar : Option Grammar}

theorem Fits.goto {id : ActionId} (h : f.Fits grammar) (hid : id < f.grammar.actions.size) :
    (f.goto id).Fits grammar :=
  ⟨h.grammar_eq, hid, h.keywords_lt, h.test_lt, h.choice_lt, h.pushed⟩

theorem Fits.entering (h : f.Fits grammar) (ws : Workspace) : (f.entering ws).1.Fits grammar := by
  unfold RuleFrame.entering
  split
  · exact h
  · refine ⟨h.grammar_eq, h.current_lt, h.keywords_lt, h.test_lt, h.choice_lt,
      fun hp => ⟨rfl, ?_⟩⟩
    rcases Bool.or_eq_true_iff.1 hp with hp | hp
    · exact (h.pushed hp).2
    · exact hp

theorem Fits.dropKeywords (h : f.Fits grammar) (ws : Workspace) :
    (f.dropKeywords ws).1.Fits grammar := by
  unfold RuleFrame.dropKeywords
  split
  · exact ⟨h.grammar_eq, h.current_lt, h.keywords_lt, h.test_lt, h.choice_lt, nofun⟩
  · exact h

theorem Acts.fits {a : Action} (h : f.Acts below ws result a input turn)
    (hb : f.grammar.Built) (ha : f.grammar.action f.current = .ok a) (hf : f.Fits grammar) :
    turn.move.Fits grammar := by
  have hnext : ∀ id, id ∈ a.successors → (f.goto id).Fits grammar := fun id hid =>
    hf.goto (hb.successor_lt ha hid)
  cases h with
  | hungry a hr => exact hf
  | pass p skipDocComments next hs => exact hf
  | call input rule success failure child hr hc =>
    refine ⟨hf, ?_⟩
    rw [hf.grammar_eq]
    exact Frame.fits_ofRule hb hc
  | choice p table keyword keywords hc =>
    exact hf.goto (hb.select_lt ha p.kind _ keyword)
  | setup input test next =>
    have hfit := hnext next (by simp [Action.successors])
    have htest : test < f.grammar.actions.size := hb.successor_lt ha (by simp [Action.successors])
    exact ⟨hfit.grammar_eq, hfit.current_lt, hfit.keywords_lt,
      fun id hid => Option.some.inj hid ▸ htest, hfit.choice_lt, hfit.pushed⟩
  | resume input normal recovery hc =>
    have hfit := hnext recovery (by simp [Action.successors])
    exact ⟨hfit.grammar_eq, hfit.current_lt, hfit.keywords_lt, hfit.test_lt, nofun, hfit.pushed⟩
  | popKeywords input next =>
    apply (hf.dropKeywords ws).goto
    have hg : (f.dropKeywords ws).1.grammar = f.grammar := by
      unfold RuleFrame.dropKeywords
      split <;> rfl
    rw [hg]
    exact hb.successor_lt ha (by simp [Action.successors])
  | done input success ws₁ hl => trivial
  | _ => exact hnext _ (by simp [Action.successors])

end RuleFrame

/-- The frames of a move refer to what is in the grammar. -/
theorem Frame.Turns.fits {frame : Frame} (h : Frame.Turns below ws result frame input turn)
    (hb : ∀ g, ws.grammar = some g → g.Built) (hf : frame.Fits ws.grammar) :
    turn.move.Fits ws.grammar := by
  cases h with
  | document f h => exact h.fits hb hf
  | sequence f h => exact h.fits hf
  | statement f h => exact h.fits hb hf
  | block f h => exact h.fits hf
  | rule f a ha h =>
    have hf : f.Fits ws.grammar := hf
    have hfit := hf.entering ws
    exact h.fits (hb _ hfit.grammar_eq) ha hfit

theorem testVote_lt (hb : g.Built) {p : Phrase} {keyword : Option KeywordId} {fuel : Nat}
    {id resume : ActionId} (h : testVote g p keyword fuel id = .ok (some resume)) :
    resume < g.actions.size := by
  induction fuel generalizing id with
  | zero => cases h
  | succ fuel ih =>
    rw [testVote] at h
    cases ha : g.action id with
    | error m => rw [ha] at h; cases h
    | ok a =>
      rw [ha] at h
      cases a with
      | advance skipDocComments next => exact ih h
      | choice table => exact ih h
      | recoveryVote resume' next =>
        obtain rfl : resume' = resume := Option.some.inj (Except.ok.inj h)
        exact hb.successor_lt ha (by simp [Action.successors])
      | _ => cases h

theorem RuleFrame.vote_lt {f : RuleFrame} (hb : f.grammar.Built) {ws : Workspace} {p : Phrase}
    {resume : ActionId} (h : f.vote ws p = .ok (some resume)) :
    resume < f.grammar.actions.size := by
  unfold vote at h
  cases ht : f.recoveryTest with
  | none => rw [ht] at h; cases h
  | some test =>
    rw [ht] at h
    cases hc : ws.keywords.classifyAt f.grammar f.keywordDepth p with
    | error m => simp only [hc, bind, Except.bind] at h; cases h
    | ok keyword =>
      simp only [hc, bind, Except.bind] at h
      exact testVote_lt hb h

theorem Voted.fits {ws : Workspace} {p : Phrase} {below below' : List Activation}
    {grammar : Option Grammar} (h : Voted ws p below below')
    (hb : ∀ g, grammar = some g → g.Built) (hf : ∀ a ∈ below, a.frame.Fits grammar) :
    ∀ a ∈ below', a.frame.Fits grammar := by
  induction h with
  | here f result below resume hv =>
    intro a ha
    rcases List.mem_cons.1 ha with rfl | ha
    · have hfit : f.Fits grammar := hf _ List.mem_cons_self
      have hresume := RuleFrame.vote_lt (hb _ hfit.grammar_eq) hv
      exact ⟨hfit.grammar_eq, hfit.current_lt, hfit.keywords_lt, hfit.test_lt,
        fun id hid => Option.some.inj hid ▸ hresume, hfit.pushed⟩
    · exact hf a (List.mem_cons_of_mem _ ha)
  | there f result hv h ih =>
    intro a ha
    rcases List.mem_cons.1 ha with rfl | ha
    · exact hf _ List.mem_cons_self
    · exact ih (fun b hb => hf b (List.mem_cons_of_mem _ hb)) a ha

end TermStream
