import TermStream.Proofs.Interpreter.Steps
import TermStream.Proofs.Queue.Contents

namespace TermStream

/-- What the running frames have taken. -/
@[ext] structure Resources where
  marks : Nat
  /-- The innermost set of keywords first. -/
  contexts : List KeywordContextId
  softEnds : Nat

def Workspace.resources (ws : Workspace) : Resources :=
  ⟨ws.queue.markCount, ws.keywords.contexts, ws.softEndDisabled⟩

namespace Resources

def marked (r : Resources) : Resources := { r with marks := r.marks + 1 }

@[simp] theorem marked_inj {r s : Resources} : r.marked = s.marked ↔ r = s := by
  simp [marked, Resources.ext_iff]

end Resources

/-- What is taken when a frame is on top of frames that have taken `r`. -/
def Frame.hold (r : Resources) : Frame → Resources
  | .document f => match f.phase with
    | .leading => r.marked
    | _ => r
  | .sequence _ => r
  | .statement f => if f.phase = .leading then r.marked else r
  | .block f => if f.phase = .opening then r else { r with softEnds := 0 }
  | .rule f =>
    if f.entered then
      ⟨r.marks + f.marked.toNat, (if f.keywordsPushed then f.keywords.toList else []) ++ r.contexts,
        r.softEnds + f.disablesSoftEnd.toNat⟩
    else r

def held : List Activation → Resources
  | [] => ⟨0, [], 0⟩
  | a :: below => a.frame.hold (held below)

def Move.hold (r : Resources) : Move → Resources
  | .again f | .needInput f | .needResource f => f.hold r
  | .call f child => child.hold (f.hold r)
  | .leave _ => r

namespace Workspace

variable {ws ws₁ : Workspace} {t : Term} {p : Phrase}

@[simp] theorem resources_request (ws : Workspace) (request : Option GrammarReference) :
    { ws with request := request }.resources = ws.resources := rfl

@[simp] theorem resources_recovering (ws : Workspace) (recovering : Bool) :
    { ws with recovering := recovering }.resources = ws.resources := rfl

@[simp] theorem resources_softEndDisabled (ws : Workspace) (n : Nat) :
    { ws with softEndDisabled := n }.resources = { ws.resources with softEnds := n } := rfl

@[simp] theorem resources_report (ws : Workspace) (t : Term) :
    (ws.report t).resources = ws.resources := by
  simp [resources, report, MarkedQueue.markCount]

@[simp] theorem resources_reportError (ws : Workspace) (code : ErrorCode) (args : List String)
    (start stop : Position) : (ws.reportError code args start stop).resources = ws.resources :=
  resources_report _ _

@[simp] theorem resources_consume (ws : Workspace) (p : Phrase) :
    (ws.consume p).resources = ws.resources := rfl

@[simp] theorem resources_take (ws : Workspace) (p : Phrase) (kind : TermKind) (role : Role) :
    (ws.take p kind role).resources = ws.resources := by
  simp [take]

@[simp] theorem resources_skip (ws : Workspace) (p : Phrase) :
    (ws.skip p).resources = ws.resources := by
  simp [skip]

@[simp] theorem resources_pushMark (ws : Workspace) :
    ws.pushMark.resources = ws.resources.marked := rfl

theorem popMark_ok (h : ws.popMark = .ok ws₁) :
    ∃ q, ws.queue.popMark = .ok q ∧ ws₁ = { ws with queue := q } := by
  unfold popMark at h
  cases hq : ws.queue.popMark with
  | error m => rw [hq] at h; cases h
  | ok q => rw [hq] at h; cases h; exact ⟨q, rfl, rfl⟩

theorem resources_popMark (h : ws.popMark = .ok ws₁) : ws.resources = ws₁.resources.marked := by
  obtain ⟨q, hq, rfl⟩ := popMark_ok h
  obtain ⟨m, hm, -⟩ := MarkedQueue.popMark_ok hq
  simp [resources, Resources.marked, MarkedQueue.markCount, hm]

theorem reportAtMark_cases (h : ws.reportAtMark t = .ok ws₁) :
    (ws.queue.activeMark? = none ∧ ws₁ = ws.report t) ∨
      ∃ q, ws.queue.insertAtMark (ws.stamp t) = .ok q ∧ ws₁ = { ws with queue := q } := by
  unfold reportAtMark at h
  split at h
  · cases hq : ws.queue.insertAtMark (ws.stamp t) with
    | error m => rw [hq] at h; cases h
    | ok q => rw [hq] at h; cases h; exact .inr ⟨q, rfl, rfl⟩
  · next hm =>
    cases h
    exact .inl ⟨by simpa [MarkedQueue.hasActiveMark] using hm, rfl⟩

theorem reportAtMark_ok (h : ws.reportAtMark t = .ok ws₁) :
    (ws₁ = ws.report t) ∨
      ∃ q, ws.queue.insertAtMark (ws.stamp t) = .ok q ∧ ws₁ = { ws with queue := q } :=
  (reportAtMark_cases h).imp_left And.right

theorem resources_reportAtMark (h : ws.reportAtMark t = .ok ws₁) :
    ws₁.resources = ws.resources := by
  rcases reportAtMark_ok h with rfl | ⟨q, hq, rfl⟩
  · exact resources_report ws t
  · simp [resources, MarkedQueue.markCount, MarkedQueue.insertAtMark_marks hq]

theorem reportStatementStart_cases (h : ws.reportStatementStart t = .ok ws₁) :
    ∃ q, (ws.queue.markCount = 1 ∧ ws.queue.insertBeforeMark (ws.stamp t) = .ok q ∨
      ws.queue.markCount ≠ 1 ∧ ws.queue.insertAtMark (ws.stamp t) = .ok q) ∧
      ws₁ = { ws with queue := q } := by
  unfold reportStatementStart at h
  split at h
  · next hc =>
    cases hq : ws.queue.insertBeforeMark (ws.stamp t) with
    | error m => rw [hq] at h; cases h
    | ok q => rw [hq] at h; cases h; exact ⟨q, .inl ⟨hc, rfl⟩, rfl⟩
  · next hc =>
    cases hq : ws.queue.insertAtMark (ws.stamp t) with
    | error m => rw [hq] at h; cases h
    | ok q => rw [hq] at h; cases h; exact ⟨q, .inr ⟨hc, rfl⟩, rfl⟩

theorem reportStatementStart_ok (h : ws.reportStatementStart t = .ok ws₁) :
    ∃ q, (ws.queue.insertBeforeMark (ws.stamp t) = .ok q ∨
      ws.queue.insertAtMark (ws.stamp t) = .ok q) ∧ ws₁ = { ws with queue := q } := by
  obtain ⟨q, hq, rfl⟩ := reportStatementStart_cases h
  exact ⟨q, hq.imp And.right And.right, rfl⟩

theorem resources_reportStatementStart (h : ws.reportStatementStart t = .ok ws₁) :
    ws₁.resources = ws.resources := by
  obtain ⟨q, hq, rfl⟩ := reportStatementStart_ok h
  rcases hq with hq | hq
  · obtain ⟨i, hm⟩ := MarkedQueue.insertBeforeMark_marks hq
    simp [resources, MarkedQueue.markCount, hm, MarkedQueue.moveOutermost_length]
  · simp [resources, MarkedQueue.markCount, MarkedQueue.insertAtMark_marks hq]

end Workspace

@[simp] theorem DocumentFrame.resources_announce (ws : Workspace) (g : Grammar) :
    (announce ws g).resources = ws.resources := by
  unfold announce
  split
  · dsimp only
    split <;> simp
  · rfl

@[simp] theorem DocumentFrame.resources_chooseContext (f : DocumentFrame) (ws : Workspace)
    (g : Grammar) : (f.chooseContext ws g).2.resources = ws.resources := by
  unfold chooseContext
  split
  · rfl
  · split
    · rfl
    · simp

@[simp] theorem DocumentFrame.resources_reportString (f : DocumentFrame) (ws : Workspace)
    (p : Phrase) (property : DoctypeProperty) :
    (f.reportString ws p property).2.resources = ws.resources := by
  simp [reportString]

@[simp] theorem DocumentFrame.phase_reportString (f : DocumentFrame) (ws : Workspace) (p : Phrase)
    (property : DoctypeProperty) : (f.reportString ws p property).1.phase = f.phase := by
  cases property <;> rfl

variable {below : List Activation} {ws : Workspace} {input : Cell Phrase} {turn : Turn}
  {r : Resources} {result : CallResult}

theorem DocumentFrame.Turns.resources_eq {f : DocumentFrame} (h : f.Turns below ws input turn)
    (hr : ws.resources = (Frame.document f).hold r) :
    turn.workspace.resources = turn.move.hold r := by
  cases h with
  | mark input hp hs =>
    simpa [Frame.hold, Move.hold, stay, goto, hp] using congrArg Resources.marked hr
  | declare p ws₁ ws₂ hp hk hw hs hm =>
    have hpop := Workspace.resources_popMark hm
    rw [Workspace.resources_reportStatementStart hs, hr] at hpop
    simpa [Frame.hold, Move.hold, stay, goto, hp] using hpop.symm
  | select p ws₁ hp hk hw hm =>
    have hpop := Workspace.resources_popMark hm
    rw [hr] at hpop
    simpa [Frame.hold, Move.hold, stay, goto, hp] using hpop.symm
  | request input hp hg => simpa [Frame.hold, Move.hold, goto, hp] using hr
  -- no other step takes anything or gives it back
  | _ => simp_all [Frame.hold, Move.hold, stay, goto]

theorem SequenceFrame.Turns.resources_eq {f : SequenceFrame} (h : f.Turns below ws input turn)
    (hr : ws.resources = (Frame.sequence f).hold r) :
    turn.workspace.resources = turn.move.hold r := by
  cases h <;> simp_all [Frame.hold, Move.hold, StatementFrame.new]

theorem RuleFrame.hold_ofContext {g : Grammar} {id : ContextId} {f : RuleFrame}
    (h : RuleFrame.ofContext g id = .ok f) : (Frame.rule f).hold r = r := by
  unfold RuleFrame.ofContext at h
  cases hc : g.context id with
  | error m => rw [hc] at h; cases h
  | ok c =>
    rw [hc] at h
    cases h
    rfl

theorem Frame.hold_ofRule {g : Grammar} {id : RuleId} {f : Frame} (h : Frame.ofRule g id = .ok f) :
    f.hold r = r := by
  unfold Frame.ofRule at h
  cases hr : g.rule id with
  | error m => rw [hr] at h; cases h
  | ok rule =>
    simp only [hr, bind, Except.bind] at h
    cases hb : rule.body with
    | actions entry => simp only [hb] at h; cases h; rfl
    | block context => simp only [hb] at h; cases h; rfl

theorem StatementFrame.Turns.resources_eq {f : StatementFrame}
    (h : f.Turns below ws result input turn) (hr : ws.resources = (Frame.statement f).hold r) :
    turn.workspace.resources = turn.move.hold r := by
  cases h with
  | mark input hp => simpa [Frame.hold, Move.hold, hp] using congrArg Resources.marked hr
  | giveUp p ws₁ hp hk hm =>
    have hpop := Workspace.resources_popMark hm
    rw [hr] at hpop
    simpa [Frame.hold, Move.hold, hp] using hpop.symm
  | enter p ws₁ ws₂ entry hp hk hs hm he =>
    have hpop := Workspace.resources_popMark hm
    rw [Workspace.resources_reportStatementStart hs, hr] at hpop
    have hpop' : ws₂.resources = r := by simpa [Frame.hold, hp] using hpop.symm
    simp only [Move.hold, RuleFrame.hold_ofContext he]
    simpa [Frame.hold] using hpop'
  | leftover p first hp hk hf =>
    cases first <;> simpa [Frame.hold, Move.hold, hp] using hr
  | _ => simp_all [Frame.hold, Move.hold, BlockFrame.new]

/-- An open block has saved what the frames below it have taken. -/
theorem BlockFrame.Turns.resources_eq {f : BlockFrame} (h : f.Turns below ws input turn)
    (hr : ws.resources = (Frame.block f).hold r)
    (hsaved : f.phase ≠ .opening → f.savedSoftEnd = r.softEnds) :
    turn.workspace.resources = turn.move.hold r := by
  cases h <;> simp_all [Frame.hold, Move.hold]

theorem KeywordStack.contexts_classify {s s' : KeywordStack} {g : Grammar} {p : Phrase}
    {keyword : Option KeywordId} (h : s.classify g p = .ok (keyword, s')) :
    s'.contexts = s.contexts := by
  unfold classify at h
  split at h
  · cases h; rfl
  · cases hc : s.classifyAt g s.depth p with
    | error m => rw [hc] at h; cases h
    | ok answer => rw [hc] at h; cases h; rfl

namespace RuleFrame

variable {f : RuleFrame}

@[simp] theorem hold_goto (f : RuleFrame) (id : ActionId) (r : Resources) :
    (Frame.rule (f.goto id)).hold r = (Frame.rule f).hold r := rfl

theorem resources_enter (hk : f.keywordsPushed = false) :
    (f.enter ws).2.resources = (Frame.rule (f.enter ws).1).hold ws.resources := by
  cases hm : f.marked <;> cases hw : f.keywords <;> cases hd : f.disablesSoftEnd <;>
    simp [enter, Frame.hold, Workspace.resources, MarkedQueue.markCount, hk, hm, hw, hd,
      Workspace.disableSoftEnd, Workspace.pushMark, MarkedQueue.pushMark, KeywordStack.push]

theorem resources_entering (hr : ws.resources = (Frame.rule f).hold r)
    (hk : f.keywordsPushed = true → f.entered = true) :
    (f.entering ws).1.entered = true ∧
      (f.entering ws).2.resources = (Frame.rule (f.entering ws).1).hold r := by
  unfold entering
  split
  · next he => exact ⟨he, hr⟩
  · next he =>
    have he : f.entered = false := by simpa using he
    have hp : f.keywordsPushed = false := by
      cases hp : f.keywordsPushed with
      | false => rfl
      | true => rw [hk hp] at he; cases he
    have hw : ws.resources = r := by simpa [Frame.hold, he] using hr
    refine ⟨rfl, ?_⟩
    rw [resources_enter hp, hw]

theorem resources_dropKeywords (f : RuleFrame) (ws : Workspace) :
    (f.dropKeywords ws).2.resources =
      if f.keywordsPushed then { ws.resources with contexts := ws.resources.contexts.tail }
      else ws.resources := by
  unfold dropKeywords
  split <;> rfl

theorem tail_contexts (hk : f.keywordsPushed = true → f.keywords.isSome = true)
    (hp : f.keywordsPushed = true) (contexts : List KeywordContextId) :
    ((if f.keywordsPushed then f.keywords.toList else []) ++ contexts).tail = contexts := by
  obtain ⟨k, hw⟩ := Option.isSome_iff_exists.1 (hk hp)
  simp [hp, hw]

theorem hold_dropKeywords (he : f.entered = true)
    (hk : f.keywordsPushed = true → f.keywords.isSome = true)
    (hr : ws.resources = (Frame.rule f).hold r) :
    (f.dropKeywords ws).2.resources = (Frame.rule (f.dropKeywords ws).1).hold r := by
  rw [resources_dropKeywords, hr]
  unfold dropKeywords
  split
  · next hp =>
    simp only [Frame.hold, he, if_true, tail_contexts hk hp]
    rfl
  · rfl

theorem leave_ok {ws₁ : Workspace} (hl : f.leave ws = .ok ws₁) :
    ∃ ws₀, (f.marked = true ∧ ws.popMark = .ok ws₀ ∨ f.marked = false ∧ ws₀ = ws) ∧
      ws₁ = if f.disablesSoftEnd then (f.dropKeywords ws₀).2.enableSoftEnd
        else (f.dropKeywords ws₀).2 := by
  have hsame : ∀ ws₀, (Except.ok (if (f.dropKeywords ws₀).1.disablesSoftEnd
        then (f.dropKeywords ws₀).2.enableSoftEnd else (f.dropKeywords ws₀).2) : Except Misuse _) =
      .ok ws₁ → ws₁ = if f.disablesSoftEnd then (f.dropKeywords ws₀).2.enableSoftEnd
        else (f.dropKeywords ws₀).2 := by
    intro ws₀ h
    have hd : (f.dropKeywords ws₀).1.disablesSoftEnd = f.disablesSoftEnd := by
      unfold dropKeywords
      split <;> rfl
    rw [hd] at h
    exact (Except.ok.inj h).symm
  unfold leave at hl
  cases hm : f.marked with
  | false =>
    rw [hm] at hl
    exact ⟨ws, .inr ⟨rfl, rfl⟩, hsame ws hl⟩
  | true =>
    rw [hm] at hl
    cases hp : ws.popMark with
    | error m => rw [hp] at hl; cases hl
    | ok ws₀ =>
      rw [hp] at hl
      exact ⟨ws₀, .inl ⟨rfl, rfl⟩, hsame ws₀ hl⟩

/-- A frame that ends gives back all that it holds. -/
theorem resources_leave {ws₁ : Workspace} (he : f.entered = true)
    (hk : f.keywordsPushed = true → f.keywords.isSome = true)
    (hr : ws.resources = (Frame.rule f).hold r) (hl : f.leave ws = .ok ws₁) :
    ws₁.resources = r := by
  obtain ⟨ws₀, hm, rfl⟩ := leave_ok hl
  have hr₀ : ws₀.resources = { (Frame.rule f).hold r with marks := r.marks } := by
    rcases hm with ⟨hm, hp⟩ | ⟨hm, rfl⟩
    · have hpop := Workspace.resources_popMark hp
      rw [hr] at hpop
      simp only [Frame.hold, he, hm, if_true, Resources.ext_iff, Resources.marked, Bool.toNat_true,
        Nat.add_right_cancel_iff] at hpop ⊢
      exact ⟨hpop.1.symm, hpop.2.1.symm, hpop.2.2.symm⟩
    · simpa [Frame.hold, he, hm] using hr
  have hdrop : (f.dropKeywords ws₀).2.resources =
      ⟨r.marks, r.contexts, r.softEnds + f.disablesSoftEnd.toNat⟩ := by
    rw [resources_dropKeywords, hr₀]
    simp only [Frame.hold, he, if_true]
    by_cases hp : f.keywordsPushed = true
    · rw [tail_contexts hk hp, if_pos hp]
    · simp [hp]
  split
  · next hd =>
    simp only [Resources.ext_iff, hd, Bool.toNat_true] at hdrop
    exact Resources.ext hdrop.1 hdrop.2.1 (congrArg (· - 1) hdrop.2.2)
  · next hd => simpa [hd] using hdrop

theorem Acts.resources_eq {a : Action} (h : f.Acts below ws result a input turn)
    (he : f.entered = true) (hk : f.keywordsPushed = true → f.keywords.isSome = true)
    (hr : ws.resources = (Frame.rule f).hold r) :
    turn.workspace.resources = turn.move.hold r := by
  cases h with
  | call input rule success failure child hn hc =>
    rw [Move.hold, Frame.hold_ofRule hc]
    exact hr
  | choice p table keyword keywords hc =>
    have hsame : { ws with keywords := keywords }.resources = ws.resources :=
      Resources.ext rfl (KeywordStack.contexts_classify hc) rfl
    simpa only [Move.hold, hold_goto, hsame] using hr
  | before input kind name next ws₁ hb =>
    simpa [Move.hold, Workspace.resources_reportAtMark hb] using hr
  | popKeywords input next => exact hold_dropKeywords he hk hr
  | done input success ws₁ hl => exact resources_leave he hk hr hl
  | setup input test next => exact hr
  | resume input normal recovery hf => exact hr
  -- no other action takes anything or gives it back
  | _ => simp_all [Move.hold]

end RuleFrame

end TermStream
