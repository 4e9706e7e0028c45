import TermStream.Interpreter.Rule

namespace TermStream

/-- The nearest of the rules on top that votes has voted. -/
inductive Voted (ws : Workspace) (p : Phrase) : List Activation → List Activation → Prop where
  | here (f : RuleFrame) (result : CallResult) (below : List Activation) (resume : ActionId)
      (hv : f.vote ws p = .ok (some resume)) :
      Voted ws p (⟨.rule f, result⟩ :: below)
        (⟨.rule { f with activeChoice := some resume }, result⟩ :: below)
  | there (f : RuleFrame) (result : CallResult) {below below' : List Activation}
      (hv : f.vote ws p = .ok none) (h : Voted ws p below below') :
      Voted ws p (⟨.rule f, result⟩ :: below) (⟨.rule f, result⟩ :: below')

theorem voteAmong_voted {ws : Workspace} {p : Phrase} {below below' : List Activation}
    (h : voteAmong ws p below = .ok (some below')) : Voted ws p below below' := by
  induction below generalizing below' with
  | nil => cases h
  | cons a below ih =>
    obtain ⟨frame, result⟩ := a
    cases frame with
    | rule f =>
      unfold voteAmong at h
      cases hv : f.vote ws p with
      | error m => rw [hv] at h; cases h
      | ok vote =>
        rw [hv] at h
        cases vote with
        | some resume => cases h; exact .here f result below resume hv
        | none =>
          cases hb : voteAmong ws p below with
          | error m => simp only [hb, bind, Except.bind] at h; cases h
          | ok voted =>
            simp only [hb, bind, Except.bind, pure, Except.pure, Except.ok.injEq] at h
            obtain ⟨below₁, rfl, rfl⟩ := Option.map_eq_some_iff.1 h
            exact .there f result hv (ih hb)
    | document f => cases h
    | sequence f => cases h
    | statement f => cases h
    | block f => cases h

theorem enclosingVote_voted {ws : Workspace} {p : Phrase} {below below' : List Activation}
    (h : enclosingVote ws p below = .ok (some below')) :
    p.kind ≠ .eof ∧ Voted ws p below below' := by
  unfold enclosingVote at h
  split at h
  · cases h
  · next hk => exact ⟨hk, voteAmong_voted h⟩

def Action.Reads : Action → Prop
  | .advance .. | .choice _ | .report .. | .reportError .. | .recoveryChoice .. => True
  | _ => False

namespace RuleFrame

def beforePosition (ws : Workspace) (input : Cell Phrase) : Position :=
  (ws.markedStart?.or (input.map Phrase.start)).getD ws.lastEnd

/-- The outcomes of an action of a frame that has been entered. -/
inductive Acts (f : RuleFrame) (below : List Activation) (ws : Workspace) (result : CallResult) :
    Action → Cell Phrase → Turn → Prop where
  | hungry (a : Action) (ha : a.Reads) :
      Acts f below ws result a none ⟨.needInput (.rule f), below, ws, none⟩
  | pass (p : Phrase) (skipDocComments : Bool) (next : ActionId)
      (hs : ws.isSkippable p skipDocComments = true) :
      Acts f below ws result (.advance skipDocComments next) (some p)
        ⟨.again (.rule f), below, ws.skip p, none⟩
  | advance (p : Phrase) (skipDocComments : Bool) (next : ActionId)
      (hs : ws.isSkippable p skipDocComments = false) :
      Acts f below ws result (.advance skipDocComments next) (some p)
        ⟨.again (.rule (f.goto next)), below, ws, some p⟩
  | call (input : Cell Phrase) (rule : RuleId) (success failure : ActionId) (child : Frame)
      (hr : result = .none) (hc : Frame.ofRule f.grammar rule = .ok child) :
      Acts f below ws result (.call rule success failure) input
        ⟨.call (.rule f) child, below, ws, input⟩
  | success (input : Cell Phrase) (rule : RuleId) (success failure : ActionId)
      (hr : result = .success) :
      Acts f below ws result (.call rule success failure) input
        ⟨.again (.rule (f.goto success)), below, ws, input⟩
  | failure (input : Cell Phrase) (rule : RuleId) (success failure : ActionId)
      (hr : result = .failure) :
      Acts f below ws result (.call rule success failure) input
        ⟨.again (.rule (f.goto failure)), below, ws, input⟩
  | choice (p : Phrase) (table : ChoiceTable) (keyword : Option KeywordId) (keywords : KeywordStack)
      (hc : ws.keywords.classify f.grammar p = .ok (keyword, keywords)) :
      Acts f below ws result (.choice table) (some p)
        ⟨.again (.rule (f.goto (table.select p.kind (p.token.map Token.key) keyword))), below,
          { ws with keywords := keywords }, some p⟩
  | take (p : Phrase) (kind : TermKind) (role : Role) (name : Option StructuralName)
      (next : ActionId) (ho : p.kind.isOuter = false) :
      Acts f below ws result (.report kind role name true next) (some p)
        ⟨.again (.rule (f.goto next)), below,
          (ws.consume p).report ((Term.wrap kind role p).named name), none⟩
  | event (p : Phrase) (kind : TermKind) (role : Role) (name : Option StructuralName)
      (consume : Bool) (next : ActionId) (position : Position)
      (hc : (consume && !p.kind.isOuter) = false)
      (hp : position = if kind.isEnd then ws.lastEnd else p.start) :
      Acts f below ws result (.report kind role name consume next) (some p)
        ⟨.again (.rule (f.goto next)), below,
          ws.report ((Term.event kind role position).named name), some p⟩
  | before (input : Cell Phrase) (kind : TermKind) (name : Option StructuralName) (next : ActionId)
      (ws₁ : Workspace)
      (hr : ws.reportAtMark ((Term.event kind .unknown (beforePosition ws input)).named name) =
        .ok ws₁) :
      Acts f below ws result (.reportBefore kind name next) input
        ⟨.again (.rule (f.goto next)), below, ws₁, input⟩
  | error (p : Phrase) (code : ErrorCode) (args : List String) (next : ActionId) :
      Acts f below ws result (.reportError code args next) (some p)
        ⟨.again (.rule (f.goto next)), below,
          ws.reportError code (if args.isEmpty then [p.text] else args) p.start p.stop, some p⟩
  | setup (input : Cell Phrase) (test next : ActionId) :
      Acts f below ws result (.recoverySetup test next) input
        ⟨.again (.rule { f.goto next with recoveryTest := some test }), below, ws, input⟩
  | vote (input : Cell Phrase) (resume next : ActionId) :
      Acts f below ws result (.recoveryVote resume next) input
        ⟨.again (.rule (f.goto next)), below, ws, input⟩
  | resume (input : Cell Phrase) (normal recovery : ActionId)
      (hf : f.activeChoice = some f.current) :
      Acts f below ws result (.recoveryChoice normal recovery) input
        ⟨.again (.rule { f.goto recovery with activeChoice := none }), below,
          { ws with recovering := false }, input⟩
  | unwind (input : Cell Phrase) (normal recovery : ActionId)
      (hf : f.activeChoice ≠ some f.current) (hr : ws.recovering = true) :
      Acts f below ws result (.recoveryChoice normal recovery) input
        ⟨.again (.rule (f.goto recovery)), below, ws, input⟩
  | recover (p : Phrase) (normal recovery : ActionId) (below' : List Activation)
      (hf : f.activeChoice ≠ some f.current) (hr : ws.recovering = false)
      (hv : enclosingVote ws p below = .ok (some below')) :
      Acts f below ws result (.recoveryChoice normal recovery) (some p)
        ⟨.again (.rule (f.goto recovery)), below', { ws with recovering := true }, some p⟩
  | normal (p : Phrase) (normal recovery : ActionId)
      (hf : f.activeChoice ≠ some f.current) (hr : ws.recovering = false)
      (hv : enclosingVote ws p below = .ok none) :
      Acts f below ws result (.recoveryChoice normal recovery) (some p)
        ⟨.again (.rule (f.goto normal)), below, ws, some p⟩
  | popKeywords (input : Cell Phrase) (next : ActionId) :
      Acts f below ws result (.popKeywords next) input
        ⟨.again (.rule ((f.dropKeywords ws).1.goto next)), below, (f.dropKeywords ws).2, input⟩
  | done (input : Cell Phrase) (success : Bool) (ws₁ : Workspace) (hl : f.leave ws = .ok ws₁) :
      Acts f below ws result (.done success) input
        ⟨.leave (.ofSuccess success), below, ws₁, input⟩

variable {f : RuleFrame} {below : List Activation} {ws : Workspace} {input : Cell Phrase}
  {result : CallResult} {a : Action} {turn : Turn}

theorem act_acts (h : f.act below ws input result a = .ok turn) :
    f.Acts below ws result a input turn := by
  cases a with
  | advance skipDocComments next =>
    cases input with
    | none => cases h; exact .hungry _ trivial
    | some p =>
      simp only [act] at h
      split at h
      · next hs => cases h; exact .pass p skipDocComments next hs
      · next hs => cases h; exact .advance p skipDocComments next (by simpa using hs)
  | call rule success failure =>
    cases result with
    | none =>
      simp only [act] at h
      cases hc : Frame.ofRule f.grammar rule with
      | error m => rw [hc] at h; cases h
      | ok child => rw [hc] at h; cases h; exact .call input rule success failure child rfl hc
    | success => cases h; exact .success input rule success failure rfl
    | failure => cases h; exact .failure input rule success failure rfl
  | choice table =>
    cases input with
    | none => cases h; exact .hungry _ trivial
    | some p =>
      simp only [act] at h
      cases hc : ws.keywords.classify f.grammar p with
      | error m => rw [hc] at h; cases h
      | ok answer =>
        obtain ⟨keyword, keywords⟩ := answer
        rw [hc] at h
        cases h
        exact .choice p table keyword keywords hc
  | report kind role name consume next =>
    cases input with
    | none => cases h; exact .hungry _ trivial
    | some p =>
      simp only [act] at h
      split at h
      · next hc =>
        obtain ⟨rfl, ho⟩ := Bool.and_eq_true_iff.1 hc
        cases h
        exact .take p kind role name next (by simpa using ho)
      · next hc => cases h; exact .event p kind role name consume next _ (by simpa using hc) rfl
  | reportBefore kind name next =>
    simp only [act] at h
    cases hr : ws.reportAtMark
        ((Term.event kind .unknown (beforePosition ws input)).named name) with
    | error m => simp only [beforePosition] at hr; rw [hr] at h; cases h
    | ok ws₁ =>
      have hr' := hr
      simp only [beforePosition] at hr'
      rw [hr'] at h
      cases h
      exact .before input kind name next ws₁ hr
  | reportError code args next =>
    cases input with
    | none => cases h; exact .hungry _ trivial
    | some p => cases h; exact .error p code args next
  | recoverySetup test next => cases h; exact .setup input test next
  | recoveryVote resume next => cases h; exact .vote input resume next
  | recoveryChoice normal recovery =>
    simp only [act] at h
    split at h
    · next hf => cases h; exact .resume input normal recovery hf
    · next hf =>
      split at h
      · next hr => cases h; exact .unwind input normal recovery hf hr
      · next hr =>
        have hr : ws.recovering = false := by simpa using hr
        cases input with
        | none => cases h; exact .hungry _ trivial
        | some p =>
          dsimp only at h
          cases hv : enclosingVote ws p below with
          | error m => rw [hv] at h; cases h
          | ok voted =>
            rw [hv] at h
            cases voted with
            | some below' => cases h; exact .recover p normal recovery below' hf hr hv
            | none => cases h; exact .normal p normal recovery hf hr hv
  | popKeywords next => cases h; exact .popKeywords input next
  | done success =>
    simp only [act] at h
    cases hl : f.leave ws with
    | error m => rw [hl] at h; cases h
    | ok ws₁ => rw [hl] at h; cases h; exact .done input success ws₁ hl

def entering (f : RuleFrame) (ws : Workspace) : RuleFrame × Workspace :=
  if f.entered then (f, ws) else f.enter ws

theorem step_eq (f : RuleFrame) (below : List Activation) (ws : Workspace) (input : Cell Phrase)
    (result : CallResult) : f.step below ws input result = (do
      let a ← Halt.ofMissing ((f.entering ws).1.grammar.action (f.entering ws).1.current)
      (f.entering ws).1.act below (f.entering ws).2 input result a) := rfl

theorem step_acts (h : f.step below ws input result = .ok turn) :
    ∃ a, (f.entering ws).1.grammar.action (f.entering ws).1.current = .ok a ∧
      (f.entering ws).1.Acts below (f.entering ws).2 result a input turn := by
  rw [step_eq] at h
  cases ha : (f.entering ws).1.grammar.action (f.entering ws).1.current with
  | error m => rw [ha] at h; cases h
  | ok a => rw [ha] at h; exact ⟨a, rfl, act_acts h⟩

end RuleFrame

end TermStream
