import TermStream.Proofs.Interpreter.Placement

namespace TermStream

open MarkedQueue Workspace

def Action.reported? : Action → Option TermKind
  | .report kind .. | .reportBefore kind .. => some kind
  | _ => none

def Action.name? : Action → Option StructuralName
  | .report _ _ name _ _ | .reportBefore _ name _ => name
  | _ => none

/-- Whether no action of a grammar says that a grammar is there. -/
def Grammar.Silent (g : Grammar) : Prop :=
  ∀ a ∈ g.actions, a.reported? ≠ some .grammarIsLoaded

theorem Grammar.Silent.withLoadErrors {g : Grammar} (h : g.Silent) (errors : ErrorChain) :
    (g.withLoadErrors errors).Silent := h

theorem Grammar.silent_standard (script : Bool) : (Grammar.standard script).Silent := by
  have h : (Grammar.standard script).actions.toList.all
      (fun a => a.reported? != some .grammarIsLoaded) = true := rfl
  intro a ha
  simpa using List.all_eq_true.1 h a (Array.mem_toList_iff.2 ha)

theorem Grammar.mem_of_action {g : Grammar} {id : ActionId} {a : Action}
    (ha : g.action id = .ok a) : a ∈ g.actions := by
  unfold Grammar.action at ha
  split at ha
  · next b hb =>
    cases ha
    exact Array.mem_of_getElem? hb
  · cases ha

inductive Frame.Names : Frame → Option StructuralName → Prop where
  | unnamed (frame : Frame) : Names frame none
  | declaration (f : DocumentFrame) : Names (.document f) (some doctypeName)
  | property (f : DocumentFrame) (property : DoctypeProperty) :
      Names (.document f) (some (.property property.name false))
  | action {f : RuleFrame} {a : Action} (ha : a ∈ f.grammar.actions) : Names (.rule f) a.name?

/-- Whether a term passes over a phrase that has no place where it stands. -/
def Term.Skips (t : Term) (p : Phrase) : Prop :=
  t.kind = .ignorable ∧ t.role = .skipped ∧ t.phrase = some p

/-- The errors that a frame finds in a step from one workspace to another. -/
inductive Frame.Finds (ws after : Workspace) (input : Cell Phrase) : Frame → ErrorChain → Prop where
  | clean (frame : Frame) : Finds ws after input frame .nil
  | unexpected (frame : Frame) {p : Phrase} {t : Term} (hi : input = some p)
      (hk : p.kind = .significant) (ht : t ∈ after.queue.toList) (hs : t.Skips p) :
      Finds ws after input frame (ws.error Problem.unexpectedToken [p.text] p.start p.stop)
  | missing (f : DocumentFrame) {p : Phrase} (property : DoctypeProperty) (hi : input = some p) :
      Finds ws after input (.document f)
        (ws.error Problem.missingDoctypeString [property.keyword] p.start p.stop)
  | loaded (f : DocumentFrame) {g : Grammar} (hg : ws.grammar = some g) :
      Finds ws after input (.document f)
        (.explained ⟨Problem.grammarHasErrors, [g.systemId], .point ws.source ws.lastEnd⟩ g.errors)
  | misnamed (f : DocumentFrame) {c : NamedContext} (hp : f.phase = .loaded)
      (hc : f.context = some c) :
      Finds ws after input (.document f) (ws.error Problem.unknownContext [c.name] c.start c.stop)
  | action {f : RuleFrame} {p : Phrase} {code : ErrorCode} {args : List String} {next : ActionId}
      (hi : input = some p) (ha : .reportError code args next ∈ f.grammar.actions) :
      Finds ws after input (.rule f)
        (ws.error code (if args.isEmpty then [p.text] else args) p.start p.stop)

def Frame.Announces : Frame → Prop
  | .document f => ¬ f.Opened
  | .rule f => ¬ f.grammar.Silent
  | _ => False

structure Frame.Reports (ws after : Workspace) (input : Cell Phrase) (frame : Frame) (t : Term) :
    Prop where
  phrase : ∀ p, t.phrase = some p → input = some p
  name : frame.Names t.name
  errors : frame.Finds ws after input t.ownErrors
  announces : t.kind = .grammarIsLoaded → frame.Announces

namespace Workspace

variable {P : Term → Prop} {ws ws₁ ws₂ : Workspace} {t : Term}

/-- Going from one workspace to the other leaves the terms in the queue, and all that it adds have a
property. -/
def Adds (P : Term → Prop) (ws ws' : Workspace) : Prop :=
  ws.Queued → ws'.Queued ∧ ws.queue.toList ⊆ ws'.queue.toList ∧
    ∀ t ∈ ws'.queue.toList, t ∈ ws.queue.toList ∨ P t

theorem Adds.trans (h : ws.Adds P ws₁) (h' : ws₁.Adds P ws₂) : ws.Adds P ws₂ := by
  intro hq
  obtain ⟨hq₁, hk₁, hl₁⟩ := h hq
  obtain ⟨hq₂, hk₂, hl₂⟩ := h' hq₁
  refine ⟨hq₂, List.Subset.trans hk₁ hk₂, fun t ht => ?_⟩
  rcases hl₂ t ht with ht | hp
  · exact hl₁ t ht
  · exact .inr hp

theorem Adds.mono {Q : Term → Prop} (h : ws.Adds P ws₁) (hpq : ∀ t, P t → Q t) : ws.Adds Q ws₁ := by
  intro hq
  obtain ⟨hq₁, hk, hl⟩ := h hq
  exact ⟨hq₁, hk, fun t ht => (hl t ht).imp_right (hpq t)⟩

theorem Adds.of_toList_eq (hq : ws.Queued → ws₁.Queued)
    (hl : ws.Queued → ws₁.queue.toList = ws.queue.toList) : ws.Adds P ws₁ := by
  intro hw
  refine ⟨hq hw, ?_, ?_⟩
  · rw [hl hw]
    exact List.Subset.refl _
  · intro t ht
    rw [hl hw] at ht
    exact .inl ht

theorem Adds.of_queue_eq (hq : ws₁.queue = ws.queue) : ws.Adds P ws₁ :=
  .of_toList_eq (fun hw => ⟨hq ▸ hw.sound, hq ▸ hw.uncommitted⟩) fun _ => hq ▸ rfl

theorem adds_pushMark (ws : Workspace) : ws.Adds P ws.pushMark :=
  .of_toList_eq (fun hq => (ws.wraps_pushMark hq).1) fun _ => toList_pushMark _

theorem adds_popMark (h : ws.popMark = .ok ws₁) : ws.Adds P ws₁ := by
  obtain ⟨q, hp, rfl⟩ := popMark_ok h
  exact .of_toList_eq (fun hq => (wraps_popMark h hq).1) fun _ => toList_popMark hp

theorem adds_insert {q : MarkedQueue Term} (hp : P (ws.stamp t))
    (hw : ws.Queued → Queued { ws with queue := q })
    (hi : ws.Queued → ∃ front back, ws.queue.toList = front ++ back ∧
      q.toList = front ++ ws.stamp t :: back) : ws.Adds P { ws with queue := q } := by
  intro hq
  obtain ⟨front, back, hl, hl'⟩ := hi hq
  refine ⟨hw hq, ?_, ?_⟩
  · change ws.queue.toList ⊆ q.toList
    rw [hl, hl']
    exact List.append_subset.2 ⟨List.subset_append_left _ _,
      fun u hu => List.mem_append_right _ (List.mem_cons_of_mem _ hu)⟩
  · intro u hu
    change u ∈ q.toList at hu
    rw [hl'] at hu
    rw [hl]
    rcases List.mem_append.1 hu with hu | hu
    · exact .inl (List.mem_append_left _ hu)
    · rcases List.mem_cons.1 hu with rfl | hu
      · exact .inr hp
      · exact .inl (List.mem_append_right _ hu)

theorem adds_report (ws : Workspace) (hp : P (ws.stamp t)) : ws.Adds P (ws.report t) :=
  adds_insert hp (fun hq => (ws.wraps_report t hq).1) fun hq =>
    ⟨ws.queue.toList, [], (List.append_nil _).symm, hq.sound.toList_append _⟩

theorem adds_reportAtMark (h : ws.reportAtMark t = .ok ws₁) (ht : t.phrase = none)
    (hp : P (ws.stamp t)) : ws.Adds P ws₁ := by
  rcases reportAtMark_ok h with rfl | ⟨q, hi, rfl⟩
  · exact ws.adds_report hp
  · exact adds_insert hp (fun hq => (wraps_insertAtMark ht hi hq).1) fun hq =>
      (hq.sound.insertAtMark hi).2

theorem adds_reportStatementStart (h : ws.reportStatementStart t = .ok ws₁) (ht : t.phrase = none)
    (hp : P (ws.stamp t)) : ws.Adds P ws₁ := by
  have hw := wraps_reportStatementStart ht h
  obtain ⟨q, hi | hi, rfl⟩ := reportStatementStart_ok h
  · exact adds_insert hp (fun hq => (hw hq).1) fun hq =>
      ⟨[], _, rfl, (hq.sound.insertBeforeMark hi).2⟩
  · exact adds_insert hp (fun hq => (hw hq).1) fun hq => (hq.sound.insertAtMark hi).2

end Workspace

variable {below : List Activation} {ws ws₁ after : Workspace} {input : Cell Phrase} {turn : Turn}
  {result : CallResult} {frame : Frame} {p : Phrase} {t : Term}

namespace Frame.Reports

theorem unwrapped (ht : t.phrase = none) (hn : frame.Names t.name)
    (he : frame.Finds ws after input t.ownErrors)
    (ha : t.kind = .grammarIsLoaded → frame.Announces) :
    frame.Reports ws after input t where
  phrase := by
    intro p hp
    cases ht.symm.trans hp
  name := hn
  errors := he
  announces := ha

theorem event (ht : t.phrase = none) (hn : frame.Names t.name) (he : t.ownErrors = .nil)
    (ha : t.kind = .grammarIsLoaded → frame.Announces) : frame.Reports ws after input t :=
  .unwrapped ht hn (by rw [he]; exact .clean frame) ha

theorem wrapped (hp : t.phrase = some p) (hn : frame.Names t.name) (he : t.ownErrors = .nil)
    (ha : t.kind = .grammarIsLoaded → frame.Announces) : frame.Reports ws after (some p) t where
  phrase := fun _ h => hp.symm.trans h
  name := hn
  errors := by
    rw [he]
    exact .clean frame
  announces := ha

end Frame.Reports

namespace Workspace

theorem adds_take {kind : TermKind} {role : Role} (hk : kind ≠ .grammarIsLoaded) :
    ws₁.Adds (frame.Reports ws after (some p)) (ws₁.take p kind role) := by
  have hconsume : ws₁.Adds (frame.Reports ws after (some p)) (ws₁.consume p) := .of_queue_eq rfl
  apply hconsume.trans
  apply adds_report
  exact .wrapped rfl (.unnamed frame) rfl fun h => absurd h hk

theorem adds_skip : ws₁.Adds (frame.Reports ws after (some p)) (ws₁.skip p) :=
  adds_take nofun

theorem adds_event {kind : TermKind} {role : Role} {position : Position}
    (hk : kind ≠ .grammarIsLoaded) :
    ws₁.Adds (frame.Reports ws after input) (ws₁.report (.event kind role position)) := by
  apply adds_report
  exact .event rfl (.unnamed frame) rfl fun h => absurd h hk

/-- An error is found where the workspace has not gone on to another source. -/
theorem adds_reportError {code : ErrorCode} {args : List String} {start stop : Position}
    (hf : frame.Finds ws after input (ws.error code args start stop))
    (hs : ws₁.source = ws.source) :
    ws₁.Adds (frame.Reports ws after input) (ws₁.reportError code args start stop) := by
  have he : ws₁.error code args start stop = ws.error code args start stop := by
    rw [Workspace.error, Workspace.error, hs]
  apply adds_report
  apply Frame.Reports.unwrapped rfl (.unnamed frame)
  · change frame.Finds ws after input (ws₁.error code args start stop)
    rwa [he]
  · exact nofun

/-- A phrase that has no place where it stands is reported as an error, and passed over. -/
theorem adds_leftover (hk : p.kind = .significant) :
    let after := (ws.reportError Problem.unexpectedToken [p.text] p.start p.stop).take p
      .ignorable .skipped
    ws.Adds (frame.Reports ws after (some p)) after := by
  intro after hq
  obtain ⟨hq', -⟩ := ws.wraps_reportError Problem.unexpectedToken [p.text] p.start p.stop hq
  have hqueue : after.queue.toList = _ ++ [_] := hq'.sound.toList_append _
  have hfinds : frame.Finds ws after (some p)
      (ws.error Problem.unexpectedToken [p.text] p.start p.stop) := by
    apply Frame.Finds.unexpected frame rfl hk
    · rw [hqueue]
      exact List.mem_append_right _ List.mem_cons_self
    · exact ⟨rfl, rfl, rfl⟩
  have herror : ws.Adds (frame.Reports ws after (some p))
      (ws.reportError Problem.unexpectedToken [p.text] p.start p.stop) :=
    adds_reportError hfinds rfl
  exact herror.trans (adds_take nofun) hq

theorem adds_startStatement {ws₂ : Workspace} {position : Position}
    (hs : ws.reportStatementStart (.event .statementStart .unknown position) = .ok ws₁)
    (hm : ws₁.popMark = .ok ws₂) : ws.Adds (frame.Reports ws after input) ws₂ := by
  have hstart : ws.Adds (frame.Reports ws after input) ws₁ :=
    adds_reportStatementStart hs rfl (.event rfl (.unnamed frame) rfl nofun)
  exact hstart.trans (adds_popMark hm)

end Workspace

namespace DocumentFrame

variable {f : DocumentFrame}

theorem adds_reportString (f : DocumentFrame) (property : DoctypeProperty) :
    ws.Adds ((Frame.document f).Reports ws after (some p)) (f.reportString ws p property).2 := by
  have hstart : ws.Adds ((Frame.document f).Reports ws after (some p))
      (ws.report ((Term.event .propertyStart .unknown p.start).named
        (some (.property property.name false)))) := by
    apply adds_report
    exact .event rfl (.property f property) rfl nofun
  apply hstart.trans
  apply Adds.trans ?_ (adds_event (by decide))
  exact adds_take (by decide)

theorem adds_announce {g : Grammar} (hg : ws.grammar = some g) (ho : ¬ f.Opened) :
    ws.Adds ((Frame.document f).Reports ws after input) (announce ws g) := by
  unfold announce
  split
  · dsimp only
    split
    · apply adds_report
      exact .event rfl (.unnamed _) rfl fun _ => ho
    · apply adds_report
      exact .unwrapped rfl (.unnamed _) (.loaded f hg) fun _ => ho
  · exact .of_queue_eq rfl

theorem adds_chooseContext (g : Grammar) (hp : f.phase = .loaded) (hs : ws₁.source = ws.source) :
    ws₁.Adds ((Frame.document f).Reports ws after input) (f.chooseContext ws₁ g).2 := by
  unfold chooseContext
  split
  · exact .of_queue_eq rfl
  · next c hc =>
    split
    · exact .of_queue_eq rfl
    · exact adds_reportError (.misnamed f hp hc) hs

theorem source_announce (ws : Workspace) (g : Grammar) : (announce ws g).source = ws.source := by
  unfold announce
  split
  · dsimp only
    split <;> rfl
  · rfl

theorem Turns.adds (h : f.Turns below ws input turn) :
    ws.Adds ((Frame.document f).Reports ws turn.workspace input) turn.workspace := by
  cases h with
  | mark input hp hs => exact ws.adds_pushMark
  | passLeading p hp hk => exact adds_skip
  | declare p ws₁ ws₂ hp hk hw hs hm =>
    apply (adds_startStatement hs hm).trans
    apply Adds.trans ?_ (adds_take (by decide))
    apply adds_report
    exact .event rfl (.declaration f) rfl nofun
  | select p ws₁ hp hk hw hm => exact adds_popMark hm
  | passProperties p hp hk => exact adds_skip
  | word p property hp hk hw hs => exact adds_take nofun
  | systemId p hp hk hs => exact f.adds_reportString _
  | leftover p hp hk hs => exact adds_leftover hk
  | finish p hp hk =>
    apply Adds.trans ?_ (adds_take (by decide))
    exact adds_event nofun
  | breakOff p hp hk =>
    apply Adds.trans ?_ (adds_event (by decide))
    exact adds_event nofun
  | passExpect p property hp hk => exact adds_skip
  | string p property hp hk hs => exact f.adds_reportString _
  | missing p property hp hk hs =>
    exact adds_reportError (.missing f property rfl) rfl
  | load input g hp hg =>
    have ho : ¬ f.Opened := by
      rintro ⟨g', context, ho⟩
      cases hp.symm.trans ho
    exact (adds_announce hg ho).trans (adds_chooseContext g hp (source_announce ws g))
  | close p g context hp hk => exact adds_take nofun
  | stray p g context hp hk => exact adds_take nofun
  -- no other step changes the queue
  | _ => exact .of_queue_eq rfl

end DocumentFrame

theorem SequenceFrame.Turns.adds {f : SequenceFrame} (h : f.Turns below ws input turn) :
    ws.Adds ((Frame.sequence f).Reports ws turn.workspace input) turn.workspace := by
  cases h with
  | control p hk => exact adds_take nofun
  | _ => exact .of_queue_eq rfl

theorem StatementFrame.Turns.adds {f : StatementFrame} (h : f.Turns below ws result input turn) :
    ws.Adds ((Frame.statement f).Reports ws turn.workspace input) turn.workspace := by
  cases h with
  | mark input hp => exact ws.adds_pushMark
  | passLeading p hp hk => exact adds_skip
  | giveUp p ws₁ hp hk hm => exact adds_popMark hm
  | enter p ws₁ ws₂ entry hp hk hs hm he => exact adds_startStatement hs hm
  | passTail p hp hk => exact adds_skip
  | finish p role hp hk hr => exact adds_take nofun
  | breakOff p hp hk => exact adds_event nofun
  | leftover p first hp hk hf =>
    cases first with
    | true => exact adds_leftover hk
    | false => exact adds_take nofun
  | _ => exact .of_queue_eq rfl

theorem BlockFrame.Turns.adds {f : BlockFrame} (h : f.Turns below ws input turn) :
    ws.Adds ((Frame.block f).Reports ws turn.workspace input) turn.workspace := by
  cases h with
  | enter p hp hk =>
    apply Adds.trans (adds_take (by decide : TermKind.blockStart ≠ .grammarIsLoaded))
    exact .of_queue_eq rfl
  | close p hp hk =>
    apply Adds.trans (adds_take (by decide : TermKind.blockEnd ≠ .grammarIsLoaded))
    exact .of_queue_eq rfl
  | breakOff p hp hk =>
    apply Adds.trans (adds_event (by decide : TermKind.blockEnd ≠ .grammarIsLoaded))
    exact .of_queue_eq rfl
  | _ => exact .of_queue_eq rfl

namespace RuleFrame

variable {f : RuleFrame}

theorem adds_entering (f : RuleFrame) {P : Term → Prop} : ws.Adds P (f.entering ws).2 := by
  rcases f.queue_entering ws with hq | hq
  · exact .of_queue_eq hq
  · exact ws.adds_pushMark.trans (.of_queue_eq hq)

theorem adds_leave {P : Term → Prop} (h : f.leave ws = .ok ws₁) : ws.Adds P ws₁ := by
  obtain ⟨ws₀, hm, hq, -⟩ := queue_leave h
  rcases hm with hm | rfl
  · exact (adds_popMark hm).trans (.of_queue_eq hq)
  · exact .of_queue_eq hq

theorem Acts.adds {a : Action} (h : f.Acts below ws result a input turn)
    (ha : a ∈ f.grammar.actions) :
    ws.Adds ((Frame.rule f).Reports ws turn.workspace input) turn.workspace := by
  have hloud : a.reported? = some .grammarIsLoaded → (Frame.rule f).Announces :=
    fun hk hsilent => hsilent a ha hk
  cases h with
  | pass p skipDocComments next hs => exact adds_skip
  | take p kind role name next ho =>
    refine Adds.trans (.of_queue_eq (rfl : (ws.consume p).queue = ws.queue)) (adds_report _ ?_)
    exact .wrapped rfl (.action ha) rfl fun hk => hloud (congrArg some hk)
  | event p kind role name consume next position hc hp =>
    apply adds_report
    exact .event rfl (.action ha) rfl fun hk => hloud (congrArg some hk)
  | before input kind name next ws₁ hr =>
    apply adds_reportAtMark hr rfl
    exact .event rfl (.action ha) rfl fun hk => hloud (congrArg some hk)
  | error p code args next => exact adds_reportError (.action rfl ha) rfl
  | popKeywords input next => exact .of_queue_eq (queue_dropKeywords f ws)
  | done input success ws₁ hl => exact adds_leave hl
  | _ => exact .of_queue_eq rfl

end RuleFrame

theorem Frame.Reports.of_entered {f f' : RuleFrame} (h : (Frame.rule f').Reports ws₁ after input t)
    (hg : f'.grammar = f.grammar) (hs : ws₁.source = ws.source) :
    (Frame.rule f).Reports ws after input t where
  phrase := h.phrase
  name := by
    have hname := h.name
    generalize t.name = name at hname ⊢
    cases hname with
    | unnamed => exact .unnamed _
    | action ha => exact .action (hg ▸ ha)
  errors := by
    have he : ws₁.error = ws.error := by
      funext code args start stop
      rw [Workspace.error, Workspace.error, hs]
    have hfinds := h.errors
    generalize t.ownErrors = errors at hfinds ⊢
    cases hfinds with
    | clean => exact .clean _
    | unexpected _ hi hk ht hs =>
      rw [he]
      exact .unexpected _ hi hk ht hs
    | action hi ha =>
      rw [he]
      exact .action hi (hg ▸ ha)
  announces := by
    intro hk
    have ha : ¬ f'.grammar.Silent := h.announces hk
    rwa [hg] at ha

theorem RuleFrame.source_entering (f : RuleFrame) (ws : Workspace) :
    (f.entering ws).2.source = ws.source := by
  unfold entering
  split
  · rfl
  · unfold enter
    cases f.marked <;> cases f.keywords <;> cases f.disablesSoftEnd <;> rfl

theorem Frame.Turns.adds (h : Frame.Turns below ws result frame input turn) :
    ws.Adds (frame.Reports ws turn.workspace input) turn.workspace := by
  cases h with
  | document f h => exact h.adds
  | sequence f h => exact h.adds
  | statement f h => exact h.adds
  | block f h => exact h.adds
  | rule f a ha h =>
    apply Adds.trans f.adds_entering
    apply (h.adds (Grammar.mem_of_action ha)).mono
    intro t ht
    exact ht.of_entered (f.grammar_entering ws) (f.source_entering ws)

end TermStream
