import TermStream.Proofs.Interpreter.OwnKeywords

namespace TermStream

namespace KeywordStack

variable {s s' : KeywordStack} {g : Grammar} {grammar : Option Grammar} {p : Phrase}
  {input : Cell Phrase} {keyword : Option KeywordId}

/-- The answer that is kept, if there is one, is that for the current phrase among the innermost
keywords. -/
def Fresh (s : KeywordStack) (grammar : Option Grammar) (input : Cell Phrase) : Prop :=
  ∀ answer, s.memo = some answer →
    ∃ p g, input = some p ∧ grammar = some g ∧ g.classifyBy s.contexts.head? p = .ok answer

theorem fresh_of_memo (h : s.memo = none) : s.Fresh grammar input := by
  intro answer hm
  cases h.symm.trans hm

theorem Fresh.memo_of_no_grammar (h : s.Fresh none input) : s.memo = none := by
  cases hm : s.memo with
  | none => rfl
  | some answer =>
    obtain ⟨p, g, -, hg, -⟩ := h answer hm
    cases hg

theorem Fresh.memo_of_no_phrase (h : s.Fresh grammar none) : s.memo = none := by
  cases hm : s.memo with
  | none => rfl
  | some answer =>
    obtain ⟨p, g, hp, -⟩ := h answer hm
    cases hp

theorem fresh_push (s : KeywordStack) (id : KeywordContextId) : (s.push id).Fresh grammar input :=
  fresh_of_memo rfl

theorem fresh_pop (s : KeywordStack) : s.pop.Fresh grammar input := fresh_of_memo rfl

theorem fresh_invalidate (s : KeywordStack) : s.invalidate.Fresh grammar input := fresh_of_memo rfl

theorem classify_invalidate (s : KeywordStack) (g : Grammar) (p : Phrase) :
    s.invalidate.classify g p =
      (g.classifyBy s.contexts.head? p).map fun answer => (answer, ⟨s.contexts, some answer⟩) := by
  have ht : s.top? s.depth = s.contexts.head? := top?_inner (List.nil_append s.contexts).symm
  rw [← ht]
  rfl

/-- A fresh answer is the one that is found without it. -/
theorem Fresh.classify_eq (h : s.Fresh (some g) (some p)) :
    s.classify g p = s.invalidate.classify g p := by
  rw [classify_invalidate]
  obtain ⟨contexts, memo⟩ := s
  cases memo with
  | none => exact classify_invalidate ⟨contexts, none⟩ g p
  | some answer =>
    obtain ⟨p', g', hp, hg, ha⟩ := h answer rfl
    cases hp
    cases hg
    rw [ha]
    rfl

theorem Fresh.classify (h : s.Fresh (some g) (some p)) (hc : s.classify g p = .ok (keyword, s')) :
    g.classifyBy s.contexts.head? p = .ok keyword ∧ s' = ⟨s.contexts, some keyword⟩ ∧
      s'.Fresh (some g) (some p) := by
  rw [h.classify_eq, classify_invalidate] at hc
  cases ha : g.classifyBy s.contexts.head? p with
  | error m => rw [ha] at hc; cases hc
  | ok answer =>
    rw [ha] at hc
    cases hc
    refine ⟨rfl, rfl, ?_⟩
    rintro _ ⟨⟩
    exact ⟨p, g, rfl, rfl, ha⟩

end KeywordStack

namespace Workspace

variable {ws ws₁ : Workspace} {t : Term}

theorem keywords_popMark (h : ws.popMark = .ok ws₁) : ws₁.keywords = ws.keywords := by
  obtain ⟨q, -, rfl⟩ := popMark_ok h
  rfl

theorem keywords_reportAtMark (h : ws.reportAtMark t = .ok ws₁) : ws₁.keywords = ws.keywords := by
  rcases reportAtMark_ok h with rfl | ⟨q, -, rfl⟩ <;> rfl

theorem keywords_reportStatementStart (h : ws.reportStatementStart t = .ok ws₁) :
    ws₁.keywords = ws.keywords := by
  obtain ⟨q, -, rfl⟩ := reportStatementStart_ok h
  rfl

end Workspace

theorem DocumentFrame.keywords_announce (ws : Workspace) (g : Grammar) :
    (announce ws g).keywords = ws.keywords := by
  unfold announce
  split
  · dsimp only
    split <;> rfl
  · rfl

theorem DocumentFrame.keywords_chooseContext (f : DocumentFrame) (ws : Workspace) (g : Grammar) :
    (f.chooseContext ws g).2.keywords = ws.keywords := by
  unfold chooseContext
  split
  · rfl
  · split <;> rfl

variable {below : List Activation} {ws : Workspace} {input : Cell Phrase} {turn : Turn}
  {result : CallResult}

/-- Either the answer is given up, or neither the keywords nor the phrase change. -/
def Turn.Forgets (ws : Workspace) (input : Cell Phrase) (turn : Turn) : Prop :=
  turn.workspace.keywords.memo = none ∨
    turn.workspace.keywords = ws.keywords ∧ turn.input = input

theorem Turn.Forgets.fresh (h : turn.Forgets ws input)
    (hs : ws.keywords.Fresh ws.grammar input) :
    turn.workspace.keywords.Fresh ws.grammar turn.input := by
  rcases h with hm | ⟨hk, hi⟩
  · exact KeywordStack.fresh_of_memo hm
  · rw [hk, hi]
    exact hs

theorem DocumentFrame.Turns.forgets {f : DocumentFrame} (h : f.Turns below ws input turn) :
    turn.Forgets ws input := by
  cases h with
  | declare p ws₁ ws₂ hp hk hw hs hm => exact .inl rfl
  | select p ws₁ hp hk hw hm => exact .inr ⟨Workspace.keywords_popMark hm, rfl⟩
  | load input g hp hg =>
    exact .inr ⟨(f.keywords_chooseContext _ g).trans (keywords_announce ws g), rfl⟩
  | _ => first | exact .inl rfl | exact .inr ⟨rfl, rfl⟩

theorem SequenceFrame.Turns.forgets {f : SequenceFrame} (h : f.Turns below ws input turn) :
    turn.Forgets ws input := by
  cases h <;> first | exact .inl rfl | exact .inr ⟨rfl, rfl⟩

theorem StatementFrame.Turns.forgets {f : StatementFrame}
    (h : f.Turns below ws result input turn) : turn.Forgets ws input := by
  cases h with
  | giveUp p ws₁ hp hk hm => exact .inr ⟨Workspace.keywords_popMark hm, rfl⟩
  | enter p ws₁ ws₂ entry hp hk hs hm he =>
    exact .inr ⟨(Workspace.keywords_popMark hm).trans
      (Workspace.keywords_reportStatementStart hs), rfl⟩
  | _ => first | exact .inl rfl | exact .inr ⟨rfl, rfl⟩

theorem BlockFrame.Turns.forgets {f : BlockFrame} (h : f.Turns below ws input turn) :
    turn.Forgets ws input := by
  cases h <;> first | exact .inl rfl | exact .inr ⟨rfl, rfl⟩

namespace RuleFrame

variable {f : RuleFrame}

theorem fresh_dropKeywords (f : RuleFrame) (hs : ws.keywords.Fresh ws.grammar input) :
    (f.dropKeywords ws).2.keywords.Fresh ws.grammar input := by
  unfold dropKeywords
  split
  · exact ws.keywords.fresh_pop
  · exact hs

theorem fresh_entering (f : RuleFrame) (hs : ws.keywords.Fresh ws.grammar input) :
    (f.entering ws).2.keywords.Fresh ws.grammar input := by
  unfold entering
  split
  · exact hs
  · unfold enter
    cases f.keywords with
    | none => cases f.marked <;> cases f.disablesSoftEnd <;> exact hs
    | some id =>
      cases f.marked <;> cases f.disablesSoftEnd <;> exact ws.keywords.fresh_push id

theorem fresh_leave {ws₁ : Workspace} (hl : f.leave ws = .ok ws₁)
    (hs : ws.keywords.Fresh ws.grammar input) : ws₁.keywords.Fresh ws.grammar input := by
  obtain ⟨ws₀, hm, rfl⟩ := leave_ok hl
  have hs₀ : ws₀.keywords.Fresh ws₀.grammar input ∧ ws₀.grammar = ws.grammar := by
    rcases hm with ⟨-, hp⟩ | ⟨-, rfl⟩
    · obtain ⟨q, -, rfl⟩ := Workspace.popMark_ok hp
      exact ⟨hs, rfl⟩
    · exact ⟨hs, rfl⟩
  have hdrop := fresh_dropKeywords f hs₀.1
  rw [hs₀.2] at hdrop
  split <;> exact hdrop

/-- A choice keeps a fresh answer. All other actions give the answer up if they change what it
is for. -/
theorem Acts.fresh {a : Action} (h : f.Acts below ws result a input turn)
    (hg : ws.grammar = some f.grammar) (hs : ws.keywords.Fresh ws.grammar input) :
    turn.workspace.keywords.Fresh ws.grammar turn.input := by
  cases h with
  | choice p table keyword keywords hc =>
    rw [hg] at hs ⊢
    exact (hs.classify hc).2.2
  | pass p skipDocComments next hk => exact ws.keywords.fresh_invalidate
  | take p kind role name next ho => exact ws.keywords.fresh_invalidate
  | before input kind name next ws₁ hr => exact Workspace.keywords_reportAtMark hr ▸ hs
  | popKeywords input next => exact fresh_dropKeywords f hs
  | done input success ws₁ hl => exact fresh_leave hl hs
  | _ => exact hs

end RuleFrame

theorem Frame.Turns.fresh {frame : Frame} (h : Frame.Turns below ws result frame input turn)
    (hf : frame.Fits ws.grammar) (hs : ws.keywords.Fresh ws.grammar input) :
    turn.workspace.keywords.Fresh ws.grammar turn.input := by
  cases h with
  | document f h => exact h.forgets.fresh hs
  | sequence f h => exact h.forgets.fresh hs
  | statement f h => exact h.forgets.fresh hs
  | block f h => exact h.forgets.fresh hs
  | rule f a ha h =>
    have hg : (f.entering ws).2.grammar = ws.grammar := congrArg Prod.fst (f.grammars_entering ws)
    have hfit : (f.entering ws).1.Fits ws.grammar := RuleFrame.Fits.entering hf ws
    have hact := h.fresh (hg.trans hfit.grammar_eq) (hg ▸ f.fresh_entering hs)
    exact hg ▸ hact

namespace Interpreter

variable {t : Interpreter}

def FreshAt (t : Interpreter) (input : Cell Phrase) : Prop :=
  t.workspace.keywords.Fresh t.workspace.grammar input

theorem FreshAt.step (h : t.FreshAt input) (hs : t.Sound) :
    (t.step input).2.1.FreshAt (t.step input).2.2 := by
  have hsteps := step_steps t input
  generalize t.step input = r at hsteps ⊢
  obtain ⟨outcome, t', input'⟩ := r
  cases hsteps with
  | output ho => exact h
  | finish ho hstack => exact h
  | lose a below e ho hstack he => exact h
  | move a below turn ho hstack ht =>
    have hturn := stepFrame_turns ht
    have hfit : a.frame.Fits t.workspace.grammar := hs.fits a (hstack ▸ List.mem_cons_self)
    have hfresh := hturn.fresh hfit h
    rw [← hturn.grammar_eq] at hfresh
    exact hfresh

theorem FreshAt.run (h : t.FreshAt input) (hs : t.Sound) (fuel : Nat) :
    (t.run fuel input).2.1.FreshAt (t.run fuel input).2.2 := by
  have hrun : (t.run fuel input).2.1.Sound ∧
      (t.run fuel input).2.1.FreshAt (t.run fuel input).2.2 :=
    run_preserves (P := fun t input => t.Sound ∧ t.FreshAt input)
      (fun t input h => ⟨(h.1.steps (step_steps t input)).2, h.2.step h.1⟩) ⟨hs, h⟩
  exact hrun.2

/-- A choice goes on with the answer that is found without the one that is kept. -/
theorem FreshAt.step_choice {f : RuleFrame} {table : ChoiceTable} {p : Phrase}
    (h : t.FreshAt (some p)) (hs : t.Sound) (hstack : t.stack = ⟨.rule f, result⟩ :: below)
    (ha : f.grammar.action f.current = .ok (.choice table)) :
    let entered := f.entering t.workspace
    ∃ keyword, f.grammar.classifyBy entered.2.keywords.contexts.head? p = .ok keyword ∧
      entered.2.keywords.classify f.grammar p =
        .ok (keyword, ⟨entered.2.keywords.contexts, some keyword⟩) ∧
      (t.workspace.queue.hasOutput = false →
        t.step (some p) = (.ok none,
          { t with
            workspace := { entered.2 with keywords := ⟨entered.2.keywords.contexts, some keyword⟩ }
            stack := ⟨.rule (entered.1.goto
              (table.select p.kind (p.token.map Token.key) keyword)), .none⟩ :: below },
          some p)) := by
  obtain ⟨turn, ht⟩ := hs.exists_turn hstack (some p)
  have hfit : f.Fits t.workspace.grammar :=
    hs.fits ⟨.rule f, result⟩ (hstack ▸ List.mem_cons_self)
  have hfresh : (f.entering t.workspace).2.keywords.Fresh (some f.grammar) (some p) :=
    hfit.grammar_eq ▸ f.fresh_entering h
  cases stepFrame_turns ht with
  | rule f a ha' hacts =>
    rw [f.grammar_entering, f.current_entering] at ha'
    obtain rfl : a = .choice table := Except.ok.inj (ha'.symm.trans ha)
    cases hacts with
    | choice p table keyword keywords hc =>
      rw [f.grammar_entering] at hc
      obtain ⟨hanswer, rfl, -⟩ := hfresh.classify hc
      refine ⟨keyword, hanswer, hc, fun ho => ?_⟩
      rw [Interpreter.step, ho, hstack]
      simp only [ht]
      rfl

namespace Session

variable {s : Session}

/-- A grammar is given and a phrase put when there is none, and then no answer has been kept. -/
theorem fresh_perform (h : s.interpreter.FreshAt s.cell) (hs : s.Sound) (call : Call) :
    (s.perform call).interpreter.FreshAt (s.perform call).cell := by
  cases call with
  | start source =>
    rw [perform, Interpreter.start]
    split <;> exact h
  | force g =>
    rw [perform, forceGrammar]
    split
    · exact h
    · next hg =>
      rw [FreshAt, hg] at h
      exact KeywordStack.fresh_of_memo h.memo_of_no_grammar
  | provide g =>
    rw [perform, provideGrammar]
    split
    · exact h
    · next hg =>
      rw [FreshAt, hg] at h
      exact KeywordStack.fresh_of_memo h.memo_of_no_grammar
  | put p =>
    rw [perform, put]
    cases hc : s.cell with
    | some q => exact h
    | none =>
      rw [FreshAt, hc] at h
      exact KeywordStack.fresh_of_memo h.memo_of_no_phrase
  | read =>
    rw [perform, Session.read]
    split
    · next term t hr =>
      obtain ⟨q, rfl, -⟩ := hs.interpreter.read_eq hr
      exact h
    · exact h
  | parse fuel =>
    change (s.interpreter.parse fuel s.cell).2.1.FreshAt (s.interpreter.parse fuel s.cell).2.2
    rw [Interpreter.parse]
    split
    · exact h
    · split
      · exact h
      · exact h.run hs.interpreter fuel

theorem fresh_performAll {calls : List Call} (h : s.interpreter.FreshAt s.cell) (hs : s.Sound)
    (hb : ∀ call ∈ calls, call.Builds) :
    (s.performAll calls).interpreter.FreshAt (s.performAll calls).cell := by
  induction calls generalizing s with
  | nil => exact h
  | cons call calls ih =>
    have hcall := hb call List.mem_cons_self
    exact ih (fresh_perform h hs call) (hs.perform hcall) fun c hc =>
      hb c (List.mem_cons_of_mem _ hc)

/-- The answer that is kept is never stale: at any moment it is the one for the phrase in the cell
among the innermost keywords. So at every choice, the answer is the one that these keywords give for
the phrase, whether it was kept or not, and the choice goes on with it. -/
theorem memo_never_stale (calls : List Call) (hb : ∀ call ∈ calls, call.Builds) :
    let s := new.performAll calls
    let t := s.interpreter
    (∀ answer, t.workspace.keywords.memo = some answer →
      ∃ p g, s.cell = some p ∧ t.workspace.grammar = some g ∧
        g.classifyBy t.workspace.keywords.contexts.head? p = .ok answer) ∧
      ∀ f result below table p, t.stack = ⟨.rule f, result⟩ :: below →
        f.grammar.action f.current = .ok (.choice table) → s.cell = some p →
        let entered := f.entering t.workspace
        ∃ keyword, f.grammar.classifyBy entered.2.keywords.contexts.head? p = .ok keyword ∧
          entered.2.keywords.classify f.grammar p =
            .ok (keyword, ⟨entered.2.keywords.contexts, some keyword⟩) ∧
          (t.workspace.queue.hasOutput = false →
            t.step (some p) = (.ok none,
              { t with
                workspace := { entered.2 with
                  keywords := ⟨entered.2.keywords.contexts, some keyword⟩ }
                stack := ⟨.rule (entered.1.goto
                  (table.select p.kind (p.token.map Token.key) keyword)), .none⟩ :: below },
              some p)) := by
  intro s t
  have hsound : s.Sound := new_sound.performAll hb
  have hnew : new.interpreter.FreshAt new.cell := KeywordStack.fresh_of_memo rfl
  have hfresh : t.FreshAt s.cell := fresh_performAll hnew new_sound hb
  refine ⟨hfresh, fun f result below table p hstack ha hp => ?_⟩
  rw [hp] at hfresh
  exact hfresh.step_choice hsound.interpreter hstack ha

/-- A grammar whose statements choose twice at the same phrase. -/
def choosingGrammar : Grammar where
  systemId := "choosing"
  isScript := true
  actions := #[
    .choice ⟨[], [(0, 1)], [], 2⟩,
    .choice ⟨[], [(0, 2)], [], 3⟩,
    .done true,
    .done false]
  rules := #[]
  contexts := #[⟨"statement", 0, some 0⟩]
  defaultContext := 0
  keywords := #["end"]
  keywordContexts := #[⟨"words", [("end", 0)]⟩]
  errors := .nil

def choosingCalls : List Call :=
  [.start "in", .force choosingGrammar, .put endPhrase, .parse 9, .read, .parse 1]

/-- The second choice goes on with the answer that the first one has kept. -/
theorem memo_never_stale_kept :
    let s := new.performAll choosingCalls
    let t := s.interpreter
    (∀ call ∈ choosingCalls, call.Builds) ∧ s.cell = some endPhrase ∧
      t.workspace.keywords.memo = some (some 0) ∧
      ∃ f result below table keyword, t.stack = ⟨.rule f, result⟩ :: below ∧
        f.grammar.action f.current = .ok (.choice table) ∧
        f.grammar.classifyBy (f.entering t.workspace).2.keywords.contexts.head? endPhrase =
          .ok keyword ∧
        (t.step s.cell).2.1.workspace.keywords.memo = some keyword := by
  intro s t
  have hb : ∀ call ∈ choosingCalls, call.Builds := by
    simp [choosingCalls, Call.Builds, Grammar.built_of_dangling? (g := choosingGrammar) rfl]
  have hcell : s.cell = some endPhrase := rfl
  have ho : t.workspace.queue.hasOutput = false := rfl
  obtain ⟨f, result, below, table, hstack, ha⟩ : ∃ f result below table,
      t.stack = ⟨.rule f, result⟩ :: below ∧
        f.grammar.action f.current = .ok (.choice table) := ⟨_, _, _, _, rfl, rfl⟩
  obtain ⟨-, hchoices⟩ := memo_never_stale choosingCalls hb
  obtain ⟨keyword, hanswer, -, hstep⟩ := hchoices f result below table endPhrase hstack ha hcell
  refine ⟨hb, hcell, rfl, f, result, below, table, keyword, hstack, ha, hanswer, ?_⟩
  rw [hcell, hstep ho]

end Session

end Interpreter

end TermStream
