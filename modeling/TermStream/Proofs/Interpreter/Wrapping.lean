import TermStream.Proofs.Interpreter.References

namespace TermStream

namespace Workspace

structure Queued (ws : Workspace) : Prop where
  sound : ws.queue.Sound
  uncommitted : ws.queue.Uncommitted

def wrapped (ws : Workspace) : List Phrase := ws.queue.toList.filterMap Term.phrase

/-- Going from one workspace to the other adds the phrases behind those that are wrapped. -/
def Wraps (ws ws' : Workspace) (ps : List Phrase) : Prop :=
  ws.Queued → ws'.Queued ∧ ws'.wrapped = ws.wrapped ++ ps

variable {ws ws₁ ws₂ : Workspace} {t : Term} {p : Phrase} {ps qs : List Phrase}

theorem Wraps.refl (ws : Workspace) : ws.Wraps ws [] := fun h => ⟨h, (List.append_nil _).symm⟩

theorem Wraps.of_queue_eq (h : ws₁.queue = ws.queue) : ws.Wraps ws₁ [] := fun hq =>
  ⟨⟨h ▸ hq.sound, h ▸ hq.uncommitted⟩, by rw [wrapped, h, wrapped, List.append_nil]⟩

theorem Wraps.trans (h : ws.Wraps ws₁ ps) (h' : ws₁.Wraps ws₂ qs) : ws.Wraps ws₂ (ps ++ qs) := by
  intro hq
  obtain ⟨hq₁, hw₁⟩ := h hq
  obtain ⟨hq₂, hw₂⟩ := h' hq₁
  exact ⟨hq₂, by rw [hw₂, hw₁, List.append_assoc]⟩

theorem Wraps.trans_queue_eq (h : ws.Wraps ws₁ ps) (hq : ws₂.queue = ws₁.queue) :
    ws.Wraps ws₂ ps := by
  simpa using h.trans (.of_queue_eq hq)

theorem Wraps.trans_nil (h : ws.Wraps ws₁ []) (h' : ws₁.Wraps ws₂ qs) : ws.Wraps ws₂ qs :=
  h.trans h'

theorem wraps_report (ws : Workspace) (t : Term) : ws.Wraps (ws.report t) t.phrase.toList := by
  intro hq
  refine ⟨⟨hq.sound.append _, fun m hm => hq.uncommitted m ?_⟩, ?_⟩
  · simpa [report] using hm
  · simp only [wrapped, report, hq.sound.toList_append, List.filterMap_append]
    cases ht : t.phrase <;> simp [stamp, ht]

theorem wraps_report_event (ws : Workspace) (ht : t.phrase = none) : ws.Wraps (ws.report t) [] := by
  have hr := ws.wraps_report t
  rwa [ht] at hr

theorem wraps_reportError (ws : Workspace) (code : ErrorCode) (args : List String)
    (start stop : Position) : ws.Wraps (ws.reportError code args start stop) [] :=
  ws.wraps_report_event rfl

theorem wraps_take (ws : Workspace) (p : Phrase) (kind : TermKind) (role : Role) :
    ws.Wraps (ws.take p kind role) [p] :=
  (Wraps.of_queue_eq rfl : ws.Wraps (ws.consume p) []).trans_nil (wraps_report _ _)

theorem wraps_skip (ws : Workspace) (p : Phrase) : ws.Wraps (ws.skip p) [p] :=
  (Wraps.of_queue_eq rfl : ws.Wraps (ws.consume p) []).trans_nil (wraps_report _ (.ignorable p))

theorem wraps_pushMark (ws : Workspace) : ws.Wraps ws.pushMark [] := fun hq =>
  ⟨⟨hq.sound.pushMark, hq.uncommitted.pushMark⟩, by simp [wrapped, pushMark]⟩

theorem wraps_popMark (h : ws.popMark = .ok ws₁) : ws.Wraps ws₁ [] := by
  obtain ⟨q, hp, rfl⟩ := popMark_ok h
  exact fun hq => ⟨⟨hq.sound.popMark hp, hq.uncommitted.popMark hp⟩,
    by simp [wrapped, MarkedQueue.toList_popMark hp]⟩

theorem wrapped_insert (front back : List Term) {terms terms' : List Term} (ht : t.phrase = none)
    (hf : terms = front ++ back) (hf' : terms' = front ++ ws.stamp t :: back) :
    terms'.filterMap Term.phrase = terms.filterMap Term.phrase := by
  have hs : (ws.stamp t).phrase = none := ht
  rw [hf, hf', List.filterMap_append, List.filterMap_append, List.filterMap_cons_none hs]

theorem wraps_insertAtMark {q : MarkedQueue Term} (ht : t.phrase = none)
    (h : ws.queue.insertAtMark (ws.stamp t) = .ok q) : ws.Wraps { ws with queue := q } [] := by
  intro hq
  obtain ⟨hs, front, back, hf, hf'⟩ := hq.sound.insertAtMark h
  refine ⟨⟨hs, fun m hm => hq.uncommitted m ?_⟩, ?_⟩
  · rwa [← MarkedQueue.insertAtMark_marks h]
  · rw [List.append_nil]
    exact wrapped_insert front back ht hf hf'

theorem wraps_reportAtMark (ht : t.phrase = none) (h : ws.reportAtMark t = .ok ws₁) :
    ws.Wraps ws₁ [] := by
  rcases reportAtMark_ok h with rfl | ⟨q, hq, rfl⟩
  · exact ws.wraps_report_event ht
  · exact wraps_insertAtMark ht hq

theorem wraps_reportStatementStart (ht : t.phrase = none)
    (h : ws.reportStatementStart t = .ok ws₁) : ws.Wraps ws₁ [] := by
  obtain ⟨q, hq | hq, rfl⟩ := reportStatementStart_ok h
  · intro hw
    obtain ⟨hs, hl⟩ := hw.sound.insertBeforeMark hq
    refine ⟨⟨hs, hw.uncommitted.insertBeforeMark hq⟩, ?_⟩
    rw [List.append_nil]
    exact wrapped_insert [] _ ht rfl hl
  · exact wraps_insertAtMark ht hq

end Workspace

open Workspace

def Frame.drops : Frame → Phrase → Bool
  | .sequence _, p => p.kind == .statementEnd && !p.hasToken
  | _, _ => false

def takenFrom (before after : Cell Phrase) : Option Phrase :=
  match after with
  | none => before
  | some _ => none

def Frame.kept (frame : Frame) (before after : Cell Phrase) : List Phrase :=
  ((takenFrom before after).filter fun p => !frame.drops p).toList

@[simp] theorem takenFrom_self (cell : Cell Phrase) : takenFrom cell cell = none := by
  cases cell <;> rfl

theorem Frame.kept_of_taken {frame : Frame} {p : Phrase} (h : frame.drops p = false) :
    frame.kept (some p) none = [p] := by
  simp [kept, takenFrom, Option.filter, h]

theorem Frame.kept_of_dropped {frame : Frame} {p : Phrase} (h : frame.drops p = true) :
    frame.kept (some p) none = [] := by
  simp [kept, takenFrom, Option.filter, h]

variable {below : List Activation} {ws : Workspace} {input : Cell Phrase} {turn : Turn}
  {result : CallResult}

theorem DocumentFrame.wraps_announce (ws : Workspace) (g : Grammar) :
    ws.Wraps (announce ws g) [] := by
  unfold announce
  split
  · dsimp only
    split
    · exact ws.wraps_report_event rfl
    · exact ws.wraps_report_event rfl
  · exact .refl ws

theorem DocumentFrame.wraps_chooseContext (f : DocumentFrame) (ws : Workspace) (g : Grammar) :
    ws.Wraps (f.chooseContext ws g).2 [] := by
  unfold chooseContext
  split
  · exact .refl ws
  · split
    · exact .refl ws
    · exact ws.wraps_reportError _ _ _ _

theorem DocumentFrame.wraps_reportString (f : DocumentFrame) (ws : Workspace) (p : Phrase)
    (property : DoctypeProperty) : ws.Wraps (f.reportString ws p property).2 [p] :=
  (((ws.wraps_report_event rfl).trans_nil (wraps_take _ p _ _)).trans
    (wraps_report_event _ rfl) : ws.Wraps _ ([p] ++ []))

theorem DocumentFrame.Turns.wraps {f : DocumentFrame} (h : f.Turns below ws input turn) :
    ws.Wraps turn.workspace ((Frame.document f).kept input turn.input) := by
  cases h with
  | mark input hp hs =>
    cases input <;> exact ws.wraps_pushMark
  | passLeading p hp hk => exact ws.wraps_skip p
  | declare p ws₁ ws₂ hp hk hw hs hm =>
    exact (wraps_reportStatementStart rfl hs).trans_nil ((wraps_popMark hm).trans_nil
      ((ws₂.wraps_report_event rfl).trans_nil (wraps_take _ p _ _)))
  | select p ws₁ hp hk hw hm => exact wraps_popMark hm
  | passProperties p hp hk => exact ws.wraps_skip p
  | word p property hp hk hw hs => exact ws.wraps_take p _ _
  | systemId p hp hk hs => exact f.wraps_reportString ws p _
  | leftover p hp hk hs => exact (ws.wraps_reportError _ _ _ _).trans_nil (wraps_take _ p _ _)
  | finish p hp hk => exact (ws.wraps_report_event rfl).trans_nil (wraps_take _ p _ _)
  | breakOff p hp hk => exact (ws.wraps_report_event rfl).trans_nil (wraps_report_event _ rfl)
  | passExpect p property hp hk => exact ws.wraps_skip p
  | string p property hp hk hs => exact f.wraps_reportString ws p _
  | missing p property hp hk hs => exact ws.wraps_reportError _ _ _ _
  | load input g hp hg =>
    have hw := (DocumentFrame.wraps_announce ws g).trans_nil (f.wraps_chooseContext _ g)
    cases input <;> exact hw
  | close p g context hp hk => exact ws.wraps_take p _ _
  | stray p g context hp hk => exact ws.wraps_take p _ _
  | hungry hp => exact .refl ws
  | script input hp hs => cases input <;> exact .refl ws
  | known input hp hg => cases input <;> exact .refl ws
  | request input hp hg => cases input <;> exact .of_queue_eq rfl
  | wait input hp hg => cases input <;> exact .refl ws
  | arrived input hp hg => cases input <;> exact .refl ws
  | absent input hp hg => cases input <;> exact .refl ws

theorem SequenceFrame.Turns.wraps {f : SequenceFrame} (h : f.Turns below ws input turn) :
    ws.Wraps turn.workspace ((Frame.sequence f).kept input turn.input) := by
  cases h with
  | hungry => exact .refl ws
  | close p hk => exact .refl ws
  | control p hk =>
    have hd : (Frame.sequence f).drops p = false := by
      rcases hk with hk | ⟨hk, ht⟩
      · simp [Frame.drops, hk]
      · simp [Frame.drops, ht]
    rw [Frame.kept_of_taken hd]
    exact ws.wraps_take p .control .control
  | drop p hk ht =>
    have hd : (Frame.sequence f).drops p = true := by simp [Frame.drops, hk, ht]
    rw [Frame.kept_of_dropped hd]
    exact .of_queue_eq rfl
  | statement p hk => exact .refl ws

theorem StatementFrame.Turns.wraps {f : StatementFrame} (h : f.Turns below ws result input turn) :
    ws.Wraps turn.workspace ((Frame.statement f).kept input turn.input) := by
  cases h with
  | hungry hp => exact .refl ws
  | mark input hp => cases input <;> exact ws.wraps_pushMark
  | passLeading p hp hk => exact ws.wraps_skip p
  | giveUp p ws₁ hp hk hm => exact wraps_popMark hm
  | enter p ws₁ ws₂ entry hp hk hs hm he =>
    exact (wraps_reportStatementStart rfl hs).trans_nil (wraps_popMark hm)
  | body input hp => cases input <;> exact .of_queue_eq rfl
  | passTail p hp hk => exact ws.wraps_skip p
  | finish p role hp hk hr => exact ws.wraps_take p _ _
  | breakOff p hp hk => exact ws.wraps_report_event rfl
  | block p hp hk => exact .refl ws
  | leftover p first hp hk hf =>
    cases first with
    | true => exact (ws.wraps_reportError _ _ _ _).trans_nil (wraps_take _ p _ _)
    | false => exact ws.wraps_take p _ _

theorem BlockFrame.Turns.wraps {f : BlockFrame} (h : f.Turns below ws input turn) :
    ws.Wraps turn.workspace ((Frame.block f).kept input turn.input) := by
  cases h with
  | hungry hp => exact .refl ws
  | refuse p hp hk => exact .refl ws
  | enter p hp hk => exact (ws.wraps_take p _ _).trans_queue_eq rfl
  | body input hp => cases input <;> exact .refl ws
  | close p hp hk => exact (ws.wraps_take p _ _).trans_queue_eq rfl
  | breakOff p hp hk => exact (ws.wraps_report_event rfl).trans_nil (.of_queue_eq rfl)

namespace RuleFrame

variable {f : RuleFrame}

theorem wraps_dropKeywords (f : RuleFrame) (ws : Workspace) :
    ws.Wraps (f.dropKeywords ws).2 [] := by
  refine .of_queue_eq ?_
  unfold dropKeywords
  split <;> rfl

theorem wraps_leave {ws₁ : Workspace} (h : f.leave ws = .ok ws₁) : ws.Wraps ws₁ [] := by
  obtain ⟨ws₀, hm, rfl⟩ := leave_ok h
  have hw : ws.Wraps ws₀ [] := by
    rcases hm with ⟨-, hp⟩ | ⟨-, rfl⟩
    · exact wraps_popMark hp
    · exact .refl _
  have hd := hw.trans_nil (f.wraps_dropKeywords ws₀)
  split
  · exact hd.trans_nil (.of_queue_eq rfl)
  · exact hd

theorem wraps_entering (f : RuleFrame) (ws : Workspace) : ws.Wraps (f.entering ws).2 [] := by
  unfold entering
  split
  · exact .refl ws
  · have hmark : ws.Wraps (if f.marked then ws.pushMark else ws) [] := by
      split
      · exact ws.wraps_pushMark
      · exact .refl ws
    refine hmark.trans_nil (.of_queue_eq ?_)
    unfold enter
    cases f.keywords <;> cases f.disablesSoftEnd <;> rfl

theorem Acts.wraps {a : Action} (h : f.Acts below ws result a input turn) :
    ws.Wraps turn.workspace ((Frame.rule f).kept input turn.input) := by
  cases h with
  | hungry a ha => exact .refl ws
  | pass p skipDocComments next hs => exact ws.wraps_skip p
  | advance p skipDocComments next hs => exact .refl ws
  | choice p table keyword keywords hc => exact .of_queue_eq rfl
  | take p kind role name next ho =>
    exact (Wraps.of_queue_eq rfl : ws.Wraps (ws.consume p) []).trans_nil (wraps_report _ _)
  | event p kind role name consume next position hc hp => exact ws.wraps_report_event rfl
  | before input kind name next ws₁ hr =>
    have hw := wraps_reportAtMark rfl hr
    cases input <;> exact hw
  | error p code args next => exact ws.wraps_reportError _ _ _ _
  | resume input normal recovery hf => cases input <;> exact .of_queue_eq rfl
  | recover p normal recovery below' hf hr hv => exact .of_queue_eq rfl
  | normal p normal recovery hf hr hv => exact .refl ws
  | popKeywords input next =>
    have hw := f.wraps_dropKeywords ws
    cases input <;> exact hw
  | done input success ws₁ hl =>
    have hw := wraps_leave hl
    cases input <;> exact hw
  | _ => cases input <;> exact .refl ws

end RuleFrame

theorem Frame.Turns.input_eq {frame : Frame} (h : Frame.Turns below ws result frame input turn) :
    turn.input = input ∨ turn.input = none := by
  cases h with
  | document f h => cases h <;> first | exact .inl rfl | exact .inr rfl
  | sequence f h => cases h <;> first | exact .inl rfl | exact .inr rfl
  | statement f h => cases h <;> first | exact .inl rfl | exact .inr rfl
  | block f h => cases h <;> first | exact .inl rfl | exact .inr rfl
  | rule f a ha h => cases h <;> first | exact .inl rfl | exact .inr rfl

/-- A step wraps the phrase that it has taken, unless the frame drops it. -/
theorem Frame.Turns.wraps {frame : Frame} (h : Frame.Turns below ws result frame input turn) :
    ws.Wraps turn.workspace (frame.kept input turn.input) := by
  cases h with
  | document f h => exact h.wraps
  | sequence f h => exact h.wraps
  | statement f h => exact h.wraps
  | block f h => exact h.wraps
  | rule f a ha h => exact (f.wraps_entering ws).trans_nil h.wraps

end TermStream
