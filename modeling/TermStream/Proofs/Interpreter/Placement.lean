import TermStream.Proofs.Interpreter.Marks
import TermStream.Proofs.Phrase.Placement

namespace TermStream

open MarkedQueue

def Term.Laid : List Char → List Term → Prop := TermStream.Laid Term.start Term.stop Term.text

/-- Behind the terms `read` the terms in the queue and then the phrases `rest` stand one after the
other, and what was consumed last ends where the phrases begin. -/
structure Workspace.Placed (read : List Term) (ws : Workspace) (rest : List Phrase) : Prop where
  queued : ws.Queued
  terms : Term.Laid [] (read ++ ws.queue.toList)
  lastEnd : ws.lastEnd = .behind (textOf Term.text (read ++ ws.queue.toList))
  rest : Phrase.Laid (textOf Term.text (read ++ ws.queue.toList)) rest

namespace Workspace.Placed

variable {ws ws₁ ws₂ : Workspace} {read : List Term} {rest : List Phrase} {p : Phrase} {t : Term}
  {front back : List Term}

theorem start_eq (h : ws.Placed read (p :: rest)) : p.start = ws.lastEnd :=
  h.rest.1.trans h.lastEnd.symm

theorem of_eq (h : ws.Placed read rest) (hq : ws₁.queue = ws.queue)
    (hl : ws₁.lastEnd = ws.lastEnd) : ws₁.Placed read rest where
  queued := ⟨hq ▸ h.queued.sound, hq ▸ h.queued.uncommitted⟩
  terms := hq ▸ h.terms
  lastEnd := by rw [hl, hq, h.lastEnd]
  rest := hq ▸ h.rest

/-- A term without text may be put anywhere in the queue, if it stands there. -/
theorem insert (h : ws.Placed read rest) (hq₁ : ws₁.Queued) (hl : ws₁.lastEnd = ws.lastEnd)
    (hq : ws.queue.toList = front ++ back) (hq' : ws₁.queue.toList = front ++ t :: back)
    (ht : t.text = "") (hs : t.start = .behind (textOf Term.text (read ++ front)))
    (he : t.stop = t.start) : ws₁.Placed read rest := by
  have hterms := h.terms
  have hlast := h.lastEnd
  have hrest := h.rest
  rw [hq, ← List.append_assoc] at hterms hlast hrest
  have htext : textOf Term.text (read ++ front ++ t :: back) =
      textOf Term.text (read ++ front ++ back) := by simp [ht]
  refine ⟨hq₁, ?_, ?_, ?_⟩
  · rw [hq', ← List.append_assoc]
    exact hterms.insert ht hs he
  · rw [hq', ← List.append_assoc, htext, hl, hlast]
  · rw [hq', ← List.append_assoc, htext]
    exact hrest

theorem report (h : ws.Placed read rest) (hp : t.phrase = none) (hs : t.start = ws.lastEnd)
    (he : t.stop = t.start) : (ws.report t).Placed read rest := by
  have hq₁ := (ws.wraps_report t h.queued).1
  have happend := h.queued.sound.toList_append (ws.stamp t)
  apply h.insert hq₁ rfl (List.append_nil _).symm happend
  · simp [Term.text, stamp, hp]
  · exact hs.trans h.lastEnd
  · exact he

theorem wrap (h : ws.Placed read (p :: rest)) (hp : t.phrase = some p) (hs : t.start = p.start)
    (he : t.stop = p.stop) : ((ws.consume p).report t).Placed read rest := by
  have hqueue : ((ws.consume p).report t).queue.toList = ws.queue.toList ++ [ws.stamp t] :=
    h.queued.sound.toList_append _
  have htext : (ws.stamp t).text = p.text := by simp [Term.text, stamp, hp]
  obtain ⟨hstart, hstop, hrest⟩ := h.rest
  refine ⟨((ws.consume p).wraps_report t ⟨h.queued.sound, h.queued.uncommitted⟩).1, ?_, ?_, ?_⟩
  · rw [hqueue, ← List.append_assoc]
    refine laid_append.2 ⟨h.terms, hs.trans hstart, ?_, trivial⟩
    rw [htext]
    exact he.trans hstop
  · rw [hqueue, ← List.append_assoc, textOf_append, textOf_cons, htext, textOf_nil,
      List.append_nil, ← hstop]
    change (if p.hasToken then p.stop else ws.lastEnd) = p.stop
    split
    · rfl
    · next ht =>
      have hnone : p.token = none := by simpa [Phrase.hasToken] using ht
      rw [← h.start_eq]
      simp [Phrase.stop, Phrase.start, hnone]
  · rw [hqueue, ← List.append_assoc, textOf_append, textOf_cons, htext, textOf_nil,
      List.append_nil]
    exact hrest

theorem take (h : ws.Placed read (p :: rest)) (kind : TermKind) (role : Role) :
    (ws.take p kind role).Placed read rest :=
  h.wrap rfl rfl rfl

theorem skip (h : ws.Placed read (p :: rest)) : (ws.skip p).Placed read rest :=
  h.wrap rfl rfl rfl

theorem drop (h : ws.Placed read (p :: rest)) (ht : p.hasToken = false) :
    (ws.consume p).Placed read rest := by
  have htext : p.text = "" := by
    have hnone : p.token = none := by simpa [Phrase.hasToken] using ht
    simp [Phrase.text, hnone]
  obtain ⟨-, -, hrest⟩ := h.rest
  refine ⟨⟨h.queued.sound, h.queued.uncommitted⟩, h.terms, ?_, ?_⟩
  · change (if p.hasToken then p.stop else ws.lastEnd) = _
    rw [ht]
    exact h.lastEnd
  · rwa [htext, String.toList_empty, List.append_nil] at hrest

theorem reportError (h : ws.Placed read (p :: rest)) (code : ErrorCode) (args : List String)
    (stop : Position) : (ws.reportError code args p.start stop).Placed read (p :: rest) :=
  h.report rfl h.start_eq rfl

theorem pushMark (h : ws.Placed read rest) : ws.pushMark.Placed read rest where
  queued := (ws.wraps_pushMark h.queued).1
  terms := by rw [Workspace.pushMark, toList_pushMark]; exact h.terms
  lastEnd := by rw [Workspace.pushMark, toList_pushMark]; exact h.lastEnd
  rest := by rw [Workspace.pushMark, toList_pushMark]; exact h.rest

theorem popMark (h : ws.Placed read rest) (hm : ws.popMark = .ok ws₁) : ws₁.Placed read rest := by
  obtain ⟨q, hq, rfl⟩ := popMark_ok hm
  have hl := toList_popMark hq
  refine ⟨(wraps_popMark hm h.queued).1, ?_, ?_, ?_⟩
  · rw [hl]
    exact h.terms
  · rw [hl]
    exact h.lastEnd
  · rw [hl]
    exact h.rest

theorem markedStart (h : ws.Placed read rest) (hp : ws.queue.Parts front back) :
    ws.markedStart?.getD ws.lastEnd = .behind (textOf Term.text (read ++ front)) := by
  have hterms := h.terms
  rw [hp.toList_eq, ← List.append_assoc] at hterms
  rw [markedStart?, hp.peekAtMark?_eq]
  cases back with
  | nil => simpa [hp.toList_eq] using h.lastEnd
  | cons t back => simpa using Laid.start_head hterms (b := t) rfl

theorem startStatement (h : ws.Placed read (p :: rest)) (hf : ws.queue.Fronted)
    (hs : ws.reportStatementStart
      (.event .statementStart .unknown (ws.markedStart?.getD p.start)) = .ok ws₁)
    (hm : ws₁.popMark = .ok ws₂) : ws₂.Placed read (p :: rest) := by
  obtain ⟨front, back, hp⟩ := exists_parts_of_startStatement h.queued hs
  obtain ⟨q, rfl, hq⟩ := toList_startStatement h.queued hf hp hs hm
  have hq₂ := ((wraps_reportStatementStart rfl hs).trans (wraps_popMark hm) h.queued).1
  refine h.insert hq₂ rfl hp.toList_eq hq rfl ?_ rfl
  rw [h.start_eq] at hs
  change ws.markedStart?.getD p.start = _
  rw [h.start_eq, h.markedStart hp]

theorem reportAtMark {input : Cell Phrase} {ps : List Phrase} {kind : TermKind}
    {name : Option StructuralName} (h : ws.Placed read (input.toList ++ ps))
    (hr : ws.reportAtMark
      ((Term.event kind .unknown (RuleFrame.beforePosition ws input)).named name) = .ok ws₁) :
    ws₁.Placed read (input.toList ++ ps) := by
  have hposition : RuleFrame.beforePosition ws input = ws.markedStart?.getD ws.lastEnd := by
    rw [RuleFrame.beforePosition]
    cases input with
    | none => rw [Option.map_none, Option.or_none]
    | some p =>
      rw [Option.map_some, h.start_eq]
      cases ws.markedStart? <;> rfl
  have hq₁ := (wraps_reportAtMark rfl hr h.queued).1
  rcases reportAtMark_cases hr with ⟨ha, rfl⟩ | ⟨q, hq, rfl⟩
  · have hnone : ws.markedStart? = none := by simp [markedStart?, peekAtMark?, ha]
    apply h.report rfl _ rfl
    rw [hnone] at hposition
    exact hposition
  · cases ha : ws.queue.activeMark? with
    | none => simp [MarkedQueue.insertAtMark, ha] at hq
    | some m =>
      obtain ⟨front, back, hp⟩ := h.queued.sound.exists_parts ha
      refine h.insert hq₁ rfl hp.toList_eq (hp.insertAtMark hq) rfl ?_ rfl
      exact hposition.trans (h.markedStart hp)

end Workspace.Placed

variable {below : List Activation} {ws : Workspace} {input : Cell Phrase} {turn : Turn}
  {result : CallResult} {read : List Term} {ps : List Phrase} {p : Phrase}

namespace DocumentFrame

def Misnames (f : DocumentFrame) (g : Grammar) : Prop :=
  ∃ c, f.context = some c ∧ g.contextNamed? c.name = none

theorem placed_announce (g : Grammar) (h : ws.Placed read ps) :
    (announce ws g).Placed read ps := by
  rw [announce]
  split
  · dsimp only
    split
    · exact h.report rfl rfl rfl
    · exact h.report rfl rfl rfl
  · exact h

theorem chooseContext_snd {f : DocumentFrame} {g : Grammar} (ws : Workspace)
    (h : ¬ f.Misnames g) : (f.chooseContext ws g).2 = ws := by
  rw [chooseContext]
  split
  · rfl
  · next c hc =>
    split
    · rfl
    · next hn => exact absurd ⟨c, hc, hn⟩ h

theorem placed_reportString (f : DocumentFrame) (property : DoctypeProperty)
    (h : ws.Placed read (p :: ps)) : (f.reportString ws p property).2.Placed read ps := by
  have hstart : (ws.report ((Term.event .propertyStart .unknown p.start).named
      (some (.property property.name false)))).Placed read (p :: ps) :=
    h.report rfl h.start_eq rfl
  exact (hstart.take .value .primary).report rfl rfl rfl

theorem Turns.placed {f : DocumentFrame} (h : f.Turns below ws input turn)
    (hf : ws.queue.Fronted)
    (hc : f.phase = .loaded → ∀ g, ws.grammar = some g → ¬ f.Misnames g)
    (hw : ws.Placed read (input.toList ++ ps)) :
    turn.workspace.Placed read (turn.input.toList ++ ps) := by
  cases h with
  | hungry hp => exact hw
  | script input hp hs => exact hw
  | mark input hp hs => exact hw.pushMark
  | passLeading p hp hk => exact hw.skip
  | declare p ws₁ ws₂ hp hk hword hs hm =>
    have hw₂ := hw.startStatement hf hs hm
    have hobject : (ws₂.report ((Term.event .objectStart .unknown p.start).named
        (some doctypeName))).Placed read (p :: ps) := hw₂.report rfl hw₂.start_eq rfl
    exact hobject.take _ _
  | select p ws₁ hp hk hword hm => exact hw.popMark hm
  | passProperties p hp hk => exact hw.skip
  | word p property hp hk hword hs => exact hw.take _ _
  | systemId p hp hk hs => exact f.placed_reportString _ hw
  | leftover p hp hk hs => exact (hw.reportError _ _ _).take _ _
  | finish p hp hk =>
    have hend : (ws.report (.event .objectEnd .unknown ws.lastEnd)).Placed read (p :: ps) :=
      hw.report rfl rfl rfl
    exact hend.take _ _
  | breakOff p hp hk =>
    have hend : (ws.report (.event .objectEnd .unknown ws.lastEnd)).Placed read (p :: ps) :=
      hw.report rfl rfl rfl
    exact hend.report rfl hend.start_eq rfl
  | passExpect p property hp hk => exact hw.skip
  | string p property hp hk hs => exact f.placed_reportString _ hw
  | missing p property hp hk hs => exact hw.reportError _ _ _
  | known input hp hg => exact hw
  | request input hp hg => exact hw.of_eq rfl rfl
  | wait input hp hg => exact hw
  | arrived input hp hg => exact hw
  | absent input hp hg => exact hw
  | load input g hp hg =>
    dsimp only
    rw [chooseContext_snd _ (hc hp g hg)]
    exact placed_announce g hw
  | close p g context hp hk => exact hw.take _ _
  | stray p g context hp hk => exact hw.take _ _

end DocumentFrame

theorem SequenceFrame.Turns.placed {f : SequenceFrame} (h : f.Turns below ws input turn)
    (hw : ws.Placed read (input.toList ++ ps)) :
    turn.workspace.Placed read (turn.input.toList ++ ps) := by
  cases h with
  | hungry => exact hw
  | close p hk => exact hw
  | control p hk => exact hw.take _ _
  | drop p hk ht => exact hw.drop ht
  | statement p hk => exact hw

theorem StatementFrame.Turns.placed {f : StatementFrame} (h : f.Turns below ws result input turn)
    (hf : ws.queue.Fronted) (hw : ws.Placed read (input.toList ++ ps)) :
    turn.workspace.Placed read (turn.input.toList ++ ps) := by
  cases h with
  | hungry hp => exact hw
  | mark input hp => exact hw.pushMark
  | passLeading p hp hk => exact hw.skip
  | giveUp p ws₁ hp hk hm => exact hw.popMark hm
  | enter p ws₁ ws₂ entry hp hk hs hm he => exact hw.startStatement hf hs hm
  | body input hp => exact hw.of_eq rfl rfl
  | passTail p hp hk => exact hw.skip
  | finish p role hp hk hr => exact hw.take _ _
  | breakOff p hp hk => exact hw.report rfl hw.start_eq rfl
  | block p hp hk => exact hw
  | leftover p first hp hk hfirst =>
    cases first with
    | true => exact (hw.reportError _ _ _).take _ _
    | false => exact hw.take _ _

theorem BlockFrame.Turns.placed {f : BlockFrame} (h : f.Turns below ws input turn)
    (hw : ws.Placed read (input.toList ++ ps)) :
    turn.workspace.Placed read (turn.input.toList ++ ps) := by
  cases h with
  | hungry hp => exact hw
  | refuse p hp hk => exact hw
  | enter p hp hk => exact (hw.take .blockStart .separator).of_eq rfl rfl
  | body input hp => exact hw
  | close p hp hk => exact (hw.take .blockEnd .separator).of_eq rfl rfl
  | breakOff p hp hk =>
    have hend : (ws.report (.event .blockEnd .unknown p.start)).Placed read (p :: ps) :=
      hw.report rfl hw.start_eq rfl
    exact hend.of_eq rfl rfl

namespace RuleFrame

variable {f : RuleFrame}

theorem placed_entering (f : RuleFrame) (hw : ws.Placed read ps) :
    (f.entering ws).2.Placed read ps := by
  have hl : (f.entering ws).2.lastEnd = ws.lastEnd := by
    rw [entering]
    split
    · rfl
    · rw [enter]
      cases f.marked <;> cases f.keywords <;> cases f.disablesSoftEnd <;> rfl
  rcases f.queue_entering ws with hq | hq
  · exact hw.of_eq hq hl
  · exact hw.pushMark.of_eq hq hl

theorem Acts.placed {a : Action} (h : f.Acts below ws result a input turn)
    (hw : ws.Placed read (input.toList ++ ps)) :
    turn.workspace.Placed read (turn.input.toList ++ ps) := by
  cases h with
  | hungry a ha => exact hw
  | pass p skipDocComments next hs => exact hw.skip
  | choice p table keyword keywords hc => exact hw.of_eq rfl rfl
  | take p kind role name next ho => exact hw.wrap rfl rfl rfl
  | event p kind role name consume next position hc hp =>
    refine hw.report rfl ?_ rfl
    change position = ws.lastEnd
    rw [hp, hw.start_eq]
    split <;> rfl
  | before input kind name next ws₁ hr => exact hw.reportAtMark hr
  | error p code args next => exact hw.reportError _ _ _
  | resume input normal recovery hf => exact hw.of_eq rfl rfl
  | recover p normal recovery below' hf hr hv => exact hw.of_eq rfl rfl
  | popKeywords input next =>
    refine hw.of_eq (queue_dropKeywords f ws) ?_
    rw [dropKeywords]
    split <;> rfl
  | done input success ws₁ hl =>
    obtain ⟨ws₀, hm, hq, hlast⟩ := queue_leave hl
    rcases hm with hm | rfl
    · exact (hw.popMark hm).of_eq hq hlast
    · exact hw.of_eq hq hlast
  -- no other action changes the queue or takes a phrase
  | _ => exact hw

end RuleFrame

/-- A step leaves every term where it comes in the stream, unless the document is given a context
that it has not asked for. -/
theorem Frame.Turns.placed {frame : Frame} (h : Frame.Turns below ws result frame input turn)
    (hf : ws.queue.Fronted)
    (hc : ∀ f, frame = .document f → f.phase = .loaded → ∀ g, ws.grammar = some g → ¬ f.Misnames g)
    (hw : ws.Placed read (input.toList ++ ps)) :
    turn.workspace.Placed read (turn.input.toList ++ ps) := by
  cases h with
  | document f h => exact h.placed hf (hc f rfl) hw
  | sequence f h => exact h.placed hw
  | statement f h => exact h.placed hf hw
  | block f h => exact h.placed hw
  | rule f a ha h => exact h.placed (f.placed_entering hw)

/-- A document that is on top of the stack has a property. -/
def OnTop (P : DocumentFrame → Prop) (stack : List Activation) : Prop :=
  ∀ f result below, stack = ⟨.document f, result⟩ :: below → P f

def DocumentFrame.Opened (f : DocumentFrame) : Prop := ∃ g context, f.phase = .body g context

theorem Frame.Turns.onTop {frame : Frame} {P : DocumentFrame → Prop}
    (h : Frame.Turns below ws result frame input turn) (hs : Shaped (⟨frame, result⟩ :: below))
    (hopened : ∀ f : DocumentFrame, f.Opened → P f)
    (hstep : ∀ f f', frame = .document f → turn.move.top? = some (.document f') → P f') :
    OnTop P (Interpreter.stackAfter turn.move turn.below).2 := by
  have hhead := h.head (Q := fun frame' => ∀ f', frame' = .document f' → P f') hs ?_ ?_ ?_
  · intro f' result' rest hstack
    exact hhead ⟨.document f', result'⟩ (by rw [hstack]; rfl) f' rfl
  · rintro _ hm f' rfl
    have hsort := h.continues.sort_eq hm
    cases h with
    | document f h => exact hstep f f' rfl hm
    | sequence f h => cases hsort
    | statement f h => cases hsort
    | block f h => cases hsort
    | rule f a ha h => cases hsort
  · rintro f _ hm f' rfl
    have hc := h.continues
    rw [hm] at hc
    exact absurd rfl hc.2.ne_document
  · rintro _ r hm ha f' rfl
    exact hopened f' ha.document_body

namespace DocumentFrame

variable {f f' : DocumentFrame}

theorem Turns.opened (h : f.Turns below ws input turn) (ho : f.Opened)
    (hm : turn.move.top? = some (.document f')) : f'.Opened := by
  obtain ⟨g, context, ho⟩ := ho
  cases h with
  | hungry hp => cases hm; exact ⟨g, context, ho⟩
  | stray p g' context' hp hk => cases hm
  | close p g' context' hp hk => cases hm
  | _ => simp_all

/-- A document with a forced script grammar never reads a declaration. -/
inductive Scripted (ws : Workspace) (f : DocumentFrame) : Prop where
  | start (hp : f.phase = .start) (hc : f.context = none)
      (hs : (ws.forced && ws.grammar.any Grammar.isScript) = true)
  | before (hp : f.phase = .selectGrammar ∨ f.phase = .awaitGrammar ∨ f.phase = .loaded)
      (hc : f.context = none)
  | opened (ho : f.Opened)

theorem Scripted.not_misnames (h : f.Scripted ws) (hp : f.phase = .loaded) (g : Grammar) :
    ¬ f.Misnames g := by
  rintro ⟨c, hc, -⟩
  cases h with
  | start hp' hn hs => cases hn.symm.trans hc
  | before hp' hn => cases hn.symm.trans hc
  | opened ho =>
    obtain ⟨g, context, ho⟩ := ho
    cases ho.symm.trans hp

theorem Turns.scripted (h : f.Turns below ws input turn) (hf : f.Scripted ws) (ws' : Workspace)
    (hm : turn.move.top? = some (.document f')) : f'.Scripted ws' := by
  cases hf with
  | start hp hc hs =>
    cases h with
    | script input hp' hs' => cases hm; exact .before (.inl rfl) hc
    | mark input hp' hs' => cases hs.symm.trans hs'
    | hungry hp' => simp [Reads, hp] at hp'
    | _ => simp_all
  | before hp hc =>
    cases h with
    | known input hp' hg => cases hm; exact .before (.inr (.inr rfl)) hc
    | request input hp' hg => cases hm; exact .before (.inr (.inl rfl)) hc
    | wait input hp' hg => cases hm; exact .before (.inr (.inl hp')) hc
    | arrived input hp' hg => cases hm; exact .before (.inr (.inr rfl)) hc
    | absent input hp' hg => cases hm; exact .before (.inr (.inl rfl)) hc
    | load input g hp' hg => cases hm
    | hungry hp' => rcases hp with hp | hp | hp <;> simp [Reads, hp] at hp'
    | _ => simp_all
  | opened ho => exact .opened (h.opened ho hm)

end DocumentFrame

end TermStream
