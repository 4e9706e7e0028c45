import TermStream.Proofs.Interpreter.Ending
import TermStream.Proofs.Interpreter.Nesting

namespace TermStream

open MarkedQueue

variable {below : List Activation} {ws : Workspace} {input : Cell Phrase} {turn : Turn}
  {result : CallResult} {read : List Term} {expected : List TermKind} {p : Phrase}

def Frame.Leading : Frame → Prop
  | .document f => f.phase = .leading
  | .statement f => f.phase = .leading
  | _ => False

theorem Frame.Awaits.not_leading {f : Frame} {sort : FrameSort} (h : f.Awaits sort) :
    ¬ f.Leading := by
  cases f with
  | document f =>
    obtain ⟨g, context, hp⟩ := h.document_body
    simp [Leading, hp]
  | statement f => rcases h.statement_phase with hp | hp <;> simp [Leading, hp]
  | _ => exact id

theorem Workspace.Queued.leads_pushMark (hq : ws.Queued) : ws.pushMark.Leads :=
  ⟨_, _, hq.sound.pushMark_parts, fun _ hmem => absurd hmem List.not_mem_nil⟩

theorem Workspace.Leads.skip (h : ws.Leads)
    (hk : p.kind = .ignorable ∨ p.kind = .softStatementEnd) : (ws.skip p).Leads := by
  have hw : (ws.consume p).Leads := h
  apply hw.append
  apply Term.neutral_ignorable
  rcases hk with hk | hk <;> simp [hk]

theorem DocumentFrame.Turns.leads {f : DocumentFrame} {f' : Frame}
    (h : f.Turns below ws input turn) (hq : ws.Queued) (hl : f.phase = .leading → ws.Leads)
    (hm : turn.move.top? = some f') (hf : f'.Leading) : turn.workspace.Leads := by
  cases h with
  | hungry hp => cases hm; exact hl hf
  | mark input hp hs => exact hq.leads_pushMark
  | passLeading p hp hk => exact (hl hp).skip hk
  | wait input hp hg => cases hm; cases hp.symm.trans hf
  | passProperties p hp hk => cases hm; cases hp.symm.trans hf
  | passExpect p property hp hk => cases hm; cases hp.symm.trans hf
  | systemId p hp hk hs => cases hm; cases hp.symm.trans hf
  | leftover p hp hk hs => cases hm; cases hp.symm.trans hf
  | load input g hp hg => cases hm
  | close p g context hp hk => cases hm
  | stray p g context hp hk => cases hm
  | _ => cases hm; cases hf

theorem StatementFrame.Turns.leads {f : StatementFrame} {f' : Frame}
    (h : f.Turns below ws result input turn) (hq : ws.Queued) (hl : f.phase = .leading → ws.Leads)
    (hm : turn.move.top? = some f') (hf : f'.Leading) : turn.workspace.Leads := by
  cases h with
  | hungry hp => cases hm; exact hl hf
  | mark input hp => exact hq.leads_pushMark
  | passLeading p hp hk => exact (hl hp).skip hk
  | passTail p hp hk => cases hm; cases hp.symm.trans hf
  | leftover p first hp hk hfirst => cases hm; cases hp.symm.trans hf
  | body input hp => cases hm; cases hf
  | giveUp p ws₁ hp hk hm' => cases hm
  | enter p ws₁ ws₂ entry hp hk hs hm' he => cases hm
  | finish p role hp hk hr => cases hm
  | breakOff p hp hk => cases hm
  | block p hp hk => cases hm

theorem Frame.not_leading_ofRule {g : Grammar} {id : RuleId} {f : Frame}
    (h : Frame.ofRule g id = .ok f) : ¬ f.Leading := by
  rcases Frame.sort_ofRule h with hs | hs
  · cases f with
    | rule f => exact fun hf => hf
    | _ => cases hs
  · cases f with
    | block f => exact fun hf => hf
    | _ => cases hs

theorem Frame.Turns.called_not_leading {frame f child : Frame}
    (h : Frame.Turns below ws result frame input turn) (hm : turn.move = .call f child) :
    ¬ child.Leading := by
  intro hf
  cases h with
  | document d h => cases h <;> cases hm <;> exact hf.elim
  | sequence d h =>
    cases h <;> cases hm
    cases hf
  | statement d h => cases h <;> cases hm <;> exact hf.elim
  | block d h =>
    cases h <;> cases hm
    exact hf.elim
  | rule d a ha h =>
    cases h with
    | call input rule success failure child hr hc =>
      cases hm
      exact absurd hf (not_leading_ofRule hc)
    | _ => cases hm

theorem Frame.Turns.leads {frame : Frame} (h : Frame.Turns below ws result frame input turn)
    (hs : Shaped (⟨frame, result⟩ :: below)) (hq : ws.Queued) (hl : frame.Leading → ws.Leads) :
    ∀ a ∈ (Interpreter.stackAfter turn.move turn.below).2.head?,
      a.frame.Leading → turn.workspace.Leads := by
  refine h.head (Q := fun f => f.Leading → turn.workspace.Leads) hs ?_
    (fun f child hm hf => absurd hf (h.called_not_leading hm))
    fun f r hm ha hf => absurd hf ha.not_leading
  intro f hm hf
  have hsort := h.continues.sort_eq hm
  cases h with
  | document d h => exact h.leads hq hl hm hf
  | statement d h => exact h.leads hq hl hm hf
  | sequence d h => cases f <;> first | exact hf.elim | cases hsort
  | block d h => cases f <;> first | exact hf.elim | cases hsort
  | rule d a ha h => cases f <;> first | exact hf.elim | cases hsort

/-- A document whose statements have begun takes only what has ended them. -/
def Frame.Closes (cell : Cell Phrase) : Frame → Prop
  | .document f => f.Opened → ∃ p, cell = some p ∧ (p.kind = .endBlock ∨ p.kind = .eof)
  | _ => True

theorem Frame.closes_of_sort_ne {f : Frame} {cell : Cell Phrase} (h : f.sort ≠ .document) :
    f.Closes cell := by
  cases f with
  | document f => exact absurd rfl h
  | _ => trivial

theorem Frame.Closes.of_none {f : Frame} (h : f.Closes none) (cell : Cell Phrase) :
    f.Closes cell := by
  cases f with
  | document f =>
    intro ho
    obtain ⟨p, hp, -⟩ := h ho
    cases hp
  | _ => trivial

theorem DocumentFrame.Turns.closes {f : DocumentFrame} {f' : Frame}
    (h : f.Turns below ws input turn) (hc : (Frame.document f).Closes input)
    (hm : turn.move.top? = some f') : f'.Closes turn.input := by
  cases h with
  | hungry hp => cases hm; exact hc
  | load input g hp hg => cases hm
  | close p g context hp hk => cases hm
  | stray p g context hp hk => cases hm
  -- in no other phase have the statements begun, nor do they begin
  | _ =>
    cases hm
    rintro ⟨g, context, ho⟩
    simp_all [goto]

theorem Frame.Turns.closes {frame : Frame} (h : Frame.Turns below ws result frame input turn)
    (hs : Shaped (⟨frame, result⟩ :: below)) (hc : frame.Closes input) :
    ∀ a ∈ (Interpreter.stackAfter turn.move turn.below).2.head?, a.frame.Closes turn.input := by
  refine h.head (Q := fun f => f.Closes turn.input) hs ?_ ?_ ?_
  · intro f hm
    have hsort := h.continues.sort_eq hm
    cases h with
    | document d h => exact h.closes hc hm
    | sequence d h => exact closes_of_sort_ne (by rw [hsort]; exact nofun)
    | statement d h => exact closes_of_sort_ne (by rw [hsort]; exact nofun)
    | block d h => exact closes_of_sort_ne (by rw [hsort]; exact nofun)
    | rule d a ha h => exact closes_of_sort_ne (by rw [hsort]; exact nofun)
  · intro f child hm
    have hcontinues := h.continues
    rw [hm] at hcontinues
    exact closes_of_sort_ne hcontinues.2.ne_document
  · intro f r hm ha
    cases f with
    | document d =>
      intro ho
      cases h with
      | sequence s h =>
        cases h with
        | close p hk => exact ⟨p, rfl, hk⟩
        | _ => cases hm
      | _ => exact ha.elim
    | _ => trivial

namespace DocumentFrame

variable {f : DocumentFrame}

theorem nested_announce (g : Grammar) (h : ws.Nested read expected) :
    (announce ws g).Nested read expected := by
  rw [announce]
  split
  · dsimp only
    split
    · exact h.neutral ⟨rfl, rfl, fun hk => by cases hk⟩
    · exact h.neutral ⟨rfl, rfl, fun hk => by cases hk⟩
  · exact h

theorem nested_chooseContext (f : DocumentFrame) (g : Grammar) (h : ws.Nested read expected) :
    (f.chooseContext ws g).2.Nested read expected := by
  rw [chooseContext]
  split
  · exact h
  · split
    · exact h
    · exact h.reportError _ _ _ _

theorem nested_reportString (f : DocumentFrame) (property : DoctypeProperty)
    (h : ws.Nested read expected) (he : .statementEnd ∈ expected) :
    (f.reportString ws p property).2.Nested read expected := by
  have hstart : (ws.report ((Term.event .propertyStart .unknown p.start).named
      (some (.property property.name false)))).Nested read (.propertyEnd :: expected) :=
    h.start rfl rfl
  have hvalue : ((ws.report ((Term.event .propertyStart .unknown p.start).named
      (some (.property property.name false)))).take p .value .primary).Nested read
        (.propertyEnd :: expected) :=
    hstart.take .value .primary rfl (by decide) fun _ => List.mem_cons_of_mem _ he
  exact hvalue.close rfl rfl _ _

theorem expects_properties (hp : f.phase = .properties) :
    (Frame.document f).expects expected = .objectEnd :: .statementEnd :: expected := by
  simp only [Frame.expects, hp]

theorem Turns.nested (h : f.Turns below ws input turn) (hf : ws.queue.Fronted)
    (hl : f.phase = .leading → ws.Leads) (hc : (Frame.document f).Closes input)
    (hm : ∀ r, turn.move ≠ .leave r) (hw : ws.Nested read ((Frame.document f).expects expected)) :
    turn.workspace.Nested read (turn.move.expects expected) := by
  cases h with
  | hungry hp => exact hw
  | script input hp hs =>
    simp only [Frame.expects, hp] at hw
    exact hw
  | mark input hp hs =>
    simp only [Frame.expects, hp] at hw
    exact hw.pushMark
  | passLeading p hp hk => exact hw.skip (by rcases hk with hk | hk <;> simp [hk])
  | declare p ws₁ ws₂ hp hk hword hs hmark =>
    simp only [Frame.expects, hp] at hw
    have hw₂ := hw.startStatement hf (hl hp) hs hmark
    have hobject : (ws₂.report ((Term.event .objectStart .unknown p.start).named
        (some doctypeName))).Nested read (.objectEnd :: .statementEnd :: expected) :=
      hw₂.start rfl rfl
    exact hobject.take _ _ rfl (by decide) fun _ => by simp
  | select p ws₁ hp hk hword hmark =>
    simp only [Frame.expects, hp] at hw
    exact hw.popMark hmark
  | passProperties p hp hk => exact hw.skip (by simp [hk])
  | word p property hp hk hword hs =>
    simp only [Frame.expects, hp] at hw
    exact hw.take _ _ rfl (by decide) fun _ => by simp
  | systemId p hp hk hs =>
    simp only [Frame.expects, hp] at hw
    have hn : (f.reportString ws p .systemId).2.Nested read
        (.objectEnd :: .statementEnd :: expected) :=
      f.nested_reportString .systemId hw (by simp)
    rw [← expects_properties (f := (f.reportString ws p .systemId).1) hp] at hn
    exact hn
  | leftover p hp hk hs =>
    have he : .statementEnd ∈ (Frame.document f).expects expected := by simp [Frame.expects, hp]
    exact (hw.reportError _ _ _ _).take _ _ rfl (by decide) fun _ => he
  | finish p hp hk =>
    simp only [Frame.expects, hp] at hw
    have hend := hw.close rfl rfl .unknown ws.lastEnd
    exact hend.takeEnd rfl rfl (by rcases hk with hk | hk <;> simp [hk]) _
  | breakOff p hp hk =>
    simp only [Frame.expects, hp] at hw
    have hend := hw.close rfl rfl .unknown ws.lastEnd
    exact hend.close rfl rfl _ _
  | passExpect p property hp hk => exact hw.skip (by simp [hk])
  | string p property hp hk hs =>
    simp only [Frame.expects, hp] at hw
    have hn : (f.reportString ws p property).2.Nested read
        (.objectEnd :: .statementEnd :: expected) :=
      f.nested_reportString property hw (by simp)
    exact hn
  | missing p property hp hk hs =>
    simp only [Frame.expects, hp] at hw
    exact hw.reportError _ _ _ _
  | known input hp hg =>
    simp only [Frame.expects, hp] at hw
    exact hw
  | request input hp hg =>
    simp only [Frame.expects, hp] at hw
    exact hw.of_queue_eq rfl
  | wait input hp hg => exact hw
  | arrived input hp hg =>
    simp only [Frame.expects, hp] at hw
    exact hw
  | absent input hp hg =>
    simp only [Frame.expects, hp] at hw
    exact hw
  | load input g hp hg =>
    simp only [Frame.expects, hp] at hw
    exact f.nested_chooseContext g (nested_announce g hw)
  | close p g context hp hk => exact absurd rfl (hm _)
  | stray p g context hp hk =>
    obtain ⟨q, hq, hk⟩ := hc ⟨g, context, hp⟩
    obtain rfl := Option.some.inj hq
    apply hw.take .control .control rfl (by decide)
    rcases hk with hk | hk <;> simp [hk]

end DocumentFrame

theorem SequenceFrame.Turns.nested {f : SequenceFrame} (h : f.Turns below ws input turn)
    (hw : ws.Nested read expected) : turn.workspace.Nested read (turn.move.expects expected) := by
  cases h with
  | hungry => exact hw
  | close p hk => exact hw
  | control p hk =>
    apply hw.take .control .control rfl (by decide)
    rcases hk with hk | ⟨hk, -⟩ <;> simp [hk]
  | drop p hk ht => exact hw.of_queue_eq rfl
  | statement p hk => exact hw

theorem StatementFrame.Turns.nested {f : StatementFrame} (h : f.Turns below ws result input turn)
    (hf : ws.queue.Fronted) (hl : f.phase = .leading → ws.Leads)
    (hw : ws.Nested read ((Frame.statement f).expects expected)) :
    turn.workspace.Nested read (turn.move.expects expected) := by
  cases h with
  | hungry hp => exact hw
  | mark input hp =>
    simp only [Frame.expects, hp] at hw
    exact hw.pushMark
  | passLeading p hp hk => exact hw.skip (by rcases hk with hk | hk <;> simp [hk])
  | giveUp p ws₁ hp hk hm =>
    simp only [Frame.expects, hp] at hw
    exact hw.popMark hm
  | enter p ws₁ ws₂ entry hp hk hs hm he =>
    simp only [Frame.expects, hp] at hw
    exact hw.startStatement hf (hl hp) hs hm
  | body input hp =>
    simp only [Frame.expects, hp] at hw
    exact hw.of_queue_eq rfl
  | passTail p hp hk => exact hw.skip (by rcases hk with hk | ⟨hk, -⟩ <;> simp [hk])
  | finish p role hp hk hr =>
    simp only [Frame.expects, hp] at hw
    exact hw.takeEnd rfl rfl (by rcases hk with hk | ⟨hk, -⟩ <;> simp [hk]) _
  | breakOff p hp hk =>
    simp only [Frame.expects, hp] at hw
    exact hw.close rfl rfl _ _
  | block p hp hk => exact hw
  | leftover p first hp hk hfirst =>
    have he : .statementEnd ∈ (Frame.statement f).expects expected := by simp [Frame.expects, hp]
    cases first with
    | true => exact (hw.reportError _ _ _ _).take _ _ rfl (by decide) fun _ => he
    | false => exact hw.take _ _ rfl (by decide) fun _ => he

theorem BlockFrame.Turns.nested {f : BlockFrame} (h : f.Turns below ws input turn)
    (he : .statementEnd ∈ expected) (hw : ws.Nested read ((Frame.block f).expects expected)) :
    turn.workspace.Nested read (turn.move.expects expected) := by
  cases h with
  | hungry hp => exact hw
  | refuse p hp hk =>
    simp only [Frame.expects, hp] at hw
    exact hw
  | enter p hp hk =>
    simp only [Frame.expects, hp] at hw
    exact (hw.takeStart rfl he .separator).of_queue_eq rfl
  | body input hp =>
    simp only [Frame.expects, hp] at hw
    exact hw
  | close p hp hk =>
    simp only [Frame.expects, hp] at hw
    exact (hw.takeEnd rfl rfl (by simp [hk]) .separator).of_queue_eq rfl
  | breakOff p hp hk =>
    simp only [Frame.expects, hp] at hw
    exact (hw.close rfl rfl .unknown p.start).of_queue_eq rfl

theorem Frame.expects_ofRule {g : Grammar} {id : RuleId} {f : Frame} (h : Frame.ofRule g id = .ok f)
    (expected : List TermKind) : f.expects expected = expected := by
  rw [Frame.ofRule] at h
  cases hr : g.rule id with
  | error m =>
    rw [hr] at h
    cases h
  | ok rule =>
    simp only [hr, bind, Except.bind] at h
    cases hb : rule.body with
    | actions entry =>
      simp only [hb] at h
      cases h
      rfl
    | block context =>
      simp only [hb] at h
      cases h
      rfl

namespace RuleFrame

variable {f : RuleFrame}

theorem nested_entering (f : RuleFrame) (hw : ws.Nested read expected) :
    (f.entering ws).2.Nested read expected := by
  rcases f.queue_entering ws with hq | hq
  · exact hw.of_queue_eq hq
  · exact hw.pushMark.of_queue_eq hq

theorem Acts.nested {a : Action} (h : f.Acts below ws result a input turn) (ha : a.isPlain = true)
    (he : .statementEnd ∈ expected) (hw : ws.Nested read expected) :
    turn.workspace.Nested read (turn.move.expects expected) := by
  cases h with
  | hungry a ha => exact hw
  | pass p skipDocComments next hs =>
    refine hw.skip ⟨fun hk => ?_, fun hk => ?_⟩
    · simp [Workspace.isSkippable, hk] at hs
    · simp [Workspace.isSkippable, hk] at hs
  | call input rule success failure child hr hc =>
    rw [Move.expects, Frame.expects_ofRule hc]
    exact hw
  | choice p table keyword keywords hc => exact hw.of_queue_eq rfl
  | take p kind role name next ho =>
    simp only [Action.isPlain, Bool.and_eq_true, beq_iff_eq, bne_iff_ne] at ha
    exact hw.wrap ha.1 ha.2 (fun _ => he) role name
  | event p kind role name consume next position hc hp =>
    simp only [Action.isPlain, Bool.and_eq_true, beq_iff_eq, bne_iff_ne] at ha
    exact hw.neutral ⟨ha.1, rfl, ha.2⟩
  | before input kind name next ws₁ hr =>
    simp only [Action.isPlain, Bool.and_eq_true, beq_iff_eq, bne_iff_ne] at ha
    exact hw.reportAtMark ⟨ha.1, rfl, ha.2⟩ rfl hr
  | error p code args next => exact hw.reportError _ _ _ _
  | resume input normal recovery hf => exact hw.of_queue_eq rfl
  | recover p normal recovery below' hf hr hv => exact hw.of_queue_eq rfl
  | popKeywords input next => exact hw.of_queue_eq (queue_dropKeywords f ws)
  | done input success ws₁ hl =>
    obtain ⟨ws₀, hm, hq, -⟩ := queue_leave hl
    rcases hm with hm | rfl
    · exact (hw.popMark hm).of_queue_eq hq
    · exact hw.of_queue_eq hq
  -- no other action changes the queue
  | _ => exact hw

end RuleFrame

/-- A step leaves the terms nested, and the frames expect the ends that are still to come. The step
that ends the document is left out: there the end of the input comes to the terms. -/
theorem Frame.Turns.nested {frame : Frame} (h : Frame.Turns below ws result frame input turn)
    (hs : Shaped (⟨frame, result⟩ :: below)) (hf : ws.queue.Fronted)
    (hl : frame.Leading → ws.Leads) (hc : frame.Closes input) (hfit : frame.Fits ws.grammar)
    (hg : ∀ g, ws.grammar = some g → g.Plain)
    (hm : ¬ (frame.sort = .document ∧ ∃ r, turn.move = .leave r))
    (hw : ws.Nested read (frame.expects (expectedBy below))) :
    turn.workspace.Nested read (turn.move.expects (expectedBy below)) := by
  cases h with
  | document f h => exact h.nested hf hl hc (fun r hr => hm ⟨rfl, r, hr⟩) hw
  | sequence f h => exact h.nested hw
  | statement f h => exact h.nested hf hl hw
  | block f h => exact h.nested (hs.statementEnd_mem (.inr rfl)) hw
  | rule f a ha h =>
    have hfit' : (f.entering ws).1.Fits ws.grammar := RuleFrame.Fits.entering hfit ws
    have hplain := hg _ hfit'.grammar_eq
    have haction : a ∈ (f.entering ws).1.grammar.actions :=
      Array.mem_toList_iff.1 (List.fst_mem_of_mem_zipIdx (Grammar.action_ok ha))
    exact h.nested (hplain a haction) (hs.statementEnd_mem (.inl rfl)) (f.nested_entering hw)

end TermStream
