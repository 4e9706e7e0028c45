import TermStream.Proofs.Interpreter.Sound

namespace TermStream

variable {below : List Activation} {ws : Workspace} {input : Cell Phrase} {turn : Turn}
  {result : CallResult}

def Move.Waits (f : Frame) : Move → Prop
  | .needInput g | .needResource g => g = f
  | _ => False

theorem DocumentFrame.Turns.again {f : DocumentFrame} {f' : Frame}
    (h : f.Turns below ws input turn) (hm : turn.move.Waits f') :
    Interpreter.stepFrame ⟨f', .none⟩ turn.below turn.workspace turn.input = .ok turn ∧
      turn.workspace.queue = ws.queue := by
  cases h with
  | hungry hp =>
    obtain rfl : Frame.document f = f' := hm
    refine ⟨?_, rfl⟩
    change f.step below ws none = _
    unfold Reads at hp
    unfold step
    cases hphase : f.phase with
    | leading | properties | expectString | body => rfl
    | _ => rw [hphase] at hp; exact hp.elim
  | request input hp hg =>
    obtain rfl : Frame.document (f.goto .awaitGrammar) = f' := hm
    refine ⟨?_, rfl⟩
    simp [Interpreter.stepFrame, step, goto, hg]
  | wait input hp hg =>
    obtain rfl : Frame.document f = f' := hm
    refine ⟨?_, rfl⟩
    simp [Interpreter.stepFrame, step, hp, hg]
  | absent input hp hg =>
    obtain rfl : Frame.document (f.goto .awaitGrammar) = f' := hm
    refine ⟨?_, rfl⟩
    simp [Interpreter.stepFrame, step, goto, hg]
  | _ => exact hm.elim

/-- What an action does that looks at the current phrase does not depend on a child. -/
theorem RuleFrame.act_eq {f : RuleFrame} {a : Action} (ha : a.Reads) :
    f.act below ws input result a = f.act below ws input .none a := by
  cases a <;> first | rfl | exact ha.elim

theorem RuleFrame.entering_entering (f : RuleFrame) (ws : Workspace) (ws' : Workspace) :
    (f.entering ws).1.entering ws' = ((f.entering ws).1, ws') := by
  have he := f.entered_entering ws
  generalize (f.entering ws).1 = f' at he ⊢
  unfold entering
  rw [if_pos he]

theorem RuleFrame.queue_entering (f : RuleFrame) (ws : Workspace) :
    (f.entering ws).2.queue = ws.queue ∨ (f.entering ws).2.queue = ws.queue.pushMark := by
  unfold entering
  split
  · exact .inl rfl
  · unfold enter
    cases f.marked <;> cases f.keywords <;> cases f.disablesSoftEnd <;>
      first | exact .inl rfl | exact .inr rfl

theorem MarkedQueue.hasOutput_pushMark {α : Type} (q : MarkedQueue α) :
    q.pushMark.hasOutput = false := by
  simp [hasOutput, needsMore, hasMark, pushMark]

theorem Interpreter.stepFrame_again {a : Activation} {f : Frame}
    (h : stepFrame a below ws input = .ok turn) (hm : turn.move.Waits f)
    (ho : ws.queue.hasOutput = false) :
    stepFrame ⟨f, .none⟩ turn.below turn.workspace turn.input = .ok turn ∧
      turn.workspace.queue.hasOutput = false := by
  obtain ⟨frame, result⟩ := a
  have ht := stepFrame_turns h
  cases ht with
  | document f ht =>
    obtain ⟨hs, hq⟩ := ht.again hm
    exact ⟨hs, hq ▸ ho⟩
  | sequence f ht =>
    cases ht with
    | hungry => cases hm; exact ⟨rfl, ho⟩
    | _ => exact hm.elim
  | statement f ht =>
    cases ht with
    | hungry hp =>
      cases hm
      refine ⟨?_, ho⟩
      rcases hp with hp | hp
      · simp [stepFrame, StatementFrame.step, hp]
      · simp [stepFrame, StatementFrame.step, hp]
    | _ => exact hm.elim
  | block f ht =>
    cases ht with
    | hungry hp => cases hm; exact ⟨h, ho⟩
    | _ => exact hm.elim
  | rule f a ha ht =>
    change f.step below ws input result = _ at h
    rw [RuleFrame.step_eq, ha] at h
    cases ht with
    | hungry a hr =>
      cases hm
      refine ⟨?_, ?_⟩
      · change RuleFrame.step _ below _ none .none = _
        rw [RuleFrame.step_eq, RuleFrame.entering_entering]
        dsimp only
        rw [ha]
        have h : RuleFrame.act _ below _ none result a = _ := h
        exact (RuleFrame.act_eq hr).symm.trans h
      · rcases f.queue_entering ws with hq | hq
        · exact hq ▸ ho
        · rw [hq]
          exact ws.queue.hasOutput_pushMark
    | _ => exact hm.elim

namespace Interpreter

theorem step_again {t t' : Interpreter} {input input' : Cell Phrase} {progress : Progress}
    (h : t.step input = (.ok (some progress), t', input')) :
    t'.step input' = (.ok (some progress), t', input') := by
  cases step_ends h with
  | output ho => exact h
  | finish ho hs => simp [step, ho, hs]
  | needInput a below turn f ho hs ht hm =>
    obtain ⟨hagain, ho'⟩ := stepFrame_again (f := f) ht (by rw [hm]; rfl) ho
    simp [step, ho', hagain, hm, stackAfter]
  | needResource a below turn f ho hs ht hm =>
    obtain ⟨hagain, ho'⟩ := stepFrame_again (f := f) ht (by rw [hm]; rfl) ho
    simp [step, ho', hagain, hm, stackAfter]

end Interpreter

/-- A document that waits for a grammar has asked for one, and one that has been given one has it.
-/
def Frame.Asked (ws : Workspace) : Frame → Prop
  | .document f =>
    (f.phase = .awaitGrammar → ws.request.isSome = true) ∧
      (f.phase = .loaded → ws.grammar.isSome = true)
  | _ => True

theorem Frame.Asked.mono {f : Frame} {ws' : Workspace} (h : f.Asked ws)
    (hr : ws.request.isSome = true → ws'.request.isSome = true)
    (hg : ws.grammar.isSome = true → ws'.grammar.isSome = true) : f.Asked ws' := by
  cases f with
  | document f => exact ⟨fun hp => hr (h.1 hp), fun hp => hg (h.2 hp)⟩
  | _ => trivial

def Move.top? : Move → Option Frame
  | .again f | .needInput f | .needResource f => some f
  | _ => none

theorem DocumentFrame.Turns.asked {f : DocumentFrame} {f' : Frame} (h : f.Turns below ws input turn)
    (ha : (Frame.document f).Asked ws) (hm : turn.move.top? = some f') :
    f'.Asked turn.workspace := by
  cases h with
  | hungry hp => cases hm; exact ha
  | wait input hp hg => cases hm; exact ha
  | known input hp hg => cases hm; exact ⟨nofun, fun _ => hg⟩
  | arrived input hp hg => cases hm; exact ⟨nofun, fun _ => hg⟩
  | request input hp hg => cases hm; exact ⟨fun _ => rfl, nofun⟩
  | absent input hp hg =>
    have hloaded := ha.2 hp
    rw [hg] at hloaded
    cases hloaded
  | load input g hp hg => cases hm
  | close p g context hp hk => cases hm
  | stray p g context hp hk => cases hm
  | _ => cases hm; simp_all [Frame.Asked, goto]

theorem Frame.asked_of_sort_ne {f : Frame} (h : f.sort ≠ .document) : f.Asked ws := by
  cases f with
  | document f => exact absurd rfl h
  | _ => trivial

theorem Frame.Awaits.ne_document {f : Frame} {sort : FrameSort} (h : f.Awaits sort) :
    sort ≠ .document := by
  rintro rfl
  cases f <;> exact h.elim

theorem Frame.Awaits.asked {f : Frame} {sort : FrameSort} (h : f.Awaits sort) : f.Asked ws := by
  cases f with
  | document f =>
    obtain ⟨g, context, hp⟩ := h.document_body
    simp [Frame.Asked, hp]
  | _ => trivial

theorem Move.Continues.sort_eq {move : Move} {f : Frame} {sort : FrameSort}
    (h : move.Continues sort) (hm : move.top? = some f) : f.sort = sort := by
  cases move with
  | again f' => cases hm; exact h
  | needInput f' => cases hm; exact h
  | needResource f' => cases hm; exact h
  | call f' child => cases hm
  | leave r => cases hm

theorem Frame.Turns.asked_top {frame f : Frame} (h : Frame.Turns below ws result frame input turn)
    (ha : frame.Asked ws) (hm : turn.move.top? = some f) : f.Asked turn.workspace := by
  have hsort := h.continues.sort_eq hm
  cases h with
  | document f h => exact h.asked ha hm
  | sequence f h => exact asked_of_sort_ne (by rw [hsort]; exact nofun)
  | statement f h => exact asked_of_sort_ne (by rw [hsort]; exact nofun)
  | block f h => exact asked_of_sort_ne (by rw [hsort]; exact nofun)
  | rule f a hf h => exact asked_of_sort_ne (by rw [hsort]; exact nofun)

/-- The frame that is on top of the stack after a step has made the step, has been called, or waits
for the frame that has ended. -/
theorem Frame.Turns.head {frame : Frame} {Q : Frame → Prop}
    (h : Frame.Turns below ws result frame input turn) (hs : Shaped (⟨frame, result⟩ :: below))
    (htop : ∀ f, turn.move.top? = some f → Q f)
    (hcall : ∀ f child, turn.move = .call f child → Q child)
    (hleave : ∀ f r, turn.move = .leave r → f.Awaits frame.sort → Q f) :
    ∀ a ∈ (Interpreter.stackAfter turn.move turn.below).2.head?, Q a.frame := by
  intro a hmem
  cases hm : turn.move with
  | again f =>
    rw [hm] at hmem
    cases hmem
    exact htop f (by rw [hm]; rfl)
  | needInput f =>
    rw [hm] at hmem
    cases hmem
    exact htop f (by rw [hm]; rfl)
  | needResource f =>
    rw [hm] at hmem
    cases hmem
    exact htop f (by rw [hm]; rfl)
  | call f child =>
    rw [hm] at hmem
    cases hmem
    exact hcall f child hm
  | leave r =>
    have hs' := h.shaped_below hs
    rw [hm] at hmem
    cases hb : turn.below with
    | nil => rw [hb] at hmem; cases hmem
    | cons b rest =>
      rw [hb] at hmem hs'
      cases hmem
      exact hleave b.frame r hm hs'.1

theorem Frame.Turns.asked {frame : Frame} (h : Frame.Turns below ws result frame input turn)
    (ha : frame.Asked ws) (hs : Shaped (⟨frame, result⟩ :: below)) :
    ∀ a ∈ (Interpreter.stackAfter turn.move turn.below).2.head?, a.frame.Asked turn.workspace := by
  refine h.head hs (fun f hm => h.asked_top ha hm) ?_
    fun f r hm hf => hf.asked
  intro f child hm
  have hc := h.continues
  rw [hm] at hc
  exact asked_of_sort_ne hc.2.ne_document

theorem Frame.Turns.needResource {frame f : Frame}
    (h : Frame.Turns below ws result frame input turn) (hm : turn.move = .needResource f) :
    turn.workspace.grammar = none ∧ ∃ d, f = .document d ∧ d.phase = .awaitGrammar := by
  cases h with
  | document d h =>
    cases h with
    | request input hp hg => cases hm; exact ⟨hg, _, rfl, rfl⟩
    | wait input hp hg => cases hm; exact ⟨hg, _, rfl, hp⟩
    | absent input hp hg => cases hm; exact ⟨hg, _, rfl, rfl⟩
    | _ => cases hm
  | sequence d h => cases h <;> cases hm
  | statement d h => cases h <;> cases hm
  | block d h => cases h <;> cases hm
  | rule d a ha h => cases h <;> cases hm

namespace Interpreter

/-- What has been asked for and not been given is what the document on top waits for. -/
structure Asking (t : Interpreter) : Prop where
  waits : t.workspace.grammar = none → t.workspace.request.isSome = true →
    t.workspace.queue.hasOutput = false ∧
      ∃ f below, t.stack = ⟨.document f, .none⟩ :: below ∧ f.phase = .awaitGrammar
  asked : ∀ a ∈ t.stack.head?, a.frame.Asked t.workspace

theorem request?_eq_some {t : Interpreter} {r : GrammarReference} :
    t.request? = some r ↔ t.workspace.grammar = none ∧ t.workspace.request = some r := by
  unfold request?
  cases t.workspace.grammar <;> simp

/-- Work ends at once as long as the grammar has not been given. -/
theorem Asking.step_eq {t : Interpreter} {r : GrammarReference} (h : t.Asking)
    (hr : t.request? = some r) (input : Cell Phrase) :
    t.step input = (.ok (some .resourceNeeded), t, input) := by
  obtain ⟨hg, hr⟩ := request?_eq_some.1 hr
  obtain ⟨ho, f, below, hs, hp⟩ := h.waits hg (by simp [hr])
  obtain ⟨ws, stack, started, finished⟩ := t
  obtain rfl : stack = ⟨.document f, .none⟩ :: below := hs
  have hstep : f.step below ws input = .ok ⟨.needResource (.document f), below, ws, input⟩ := by
    have hg : ws.grammar = none := hg
    simp [DocumentFrame.step, hp, hg]
  have ho : ws.queue.hasOutput = false := ho
  simp [step, ho, stepFrame, hstep, stackAfter]

theorem Asking.step {t : Interpreter} (h : t.Asking) (hsound : t.Sound) (input : Cell Phrase) :
    (t.step input).2.1.Asking := by
  have hs := step_steps t input
  cases hr : t.request? with
  | some r =>
    rw [h.step_eq hr]
    exact h
  | none =>
    generalize t.step input = r at hs ⊢
    obtain ⟨outcome, t', input'⟩ := r
    cases hs with
    | output ho => exact h
    | finish ho hs => exact ⟨h.waits, h.asked⟩
    | lose a below e ho hs he =>
      obtain ⟨turn, ht⟩ := hsound.exists_turn hs input'
      rw [he] at ht
      cases ht
    | move a below turn ho hs ht =>
      have hturn := stepFrame_turns ht
      have hshaped := hsound.shaped
      rw [hs] at hshaped
      refine ⟨fun hg hreq => ?_, hturn.asked (h.asked a (by rw [hs]; rfl)) hshaped⟩
      obtain ⟨r, hreq⟩ := Option.isSome_iff_exists.1 hreq
      rcases hturn.grammars_eq with he | ⟨f, hf, -, rfl⟩
      · obtain ⟨hg', hreq', -⟩ := Workspace.grammars_eq_iff.1 he
        rw [request?_eq_some.2 ⟨hg'.symm.trans hg, hreq'.symm.trans hreq⟩] at hr
        cases hr
      · exact ⟨ho, _, below, rfl, rfl⟩

theorem Asking.exists_request {t t' : Interpreter} {input input' : Cell Phrase} (h : t'.Asking)
    (hs : t.step input = (.ok (some .resourceNeeded), t', input')) : ∃ r, t'.request? = some r := by
  cases step_ends hs with
  | needResource a below turn f ho hs ht hm =>
    obtain ⟨hg, d, rfl, hp⟩ := (stepFrame_turns ht).needResource hm
    have hasked := h.asked ⟨.document d, .none⟩ rfl
    obtain ⟨r, hr⟩ := Option.isSome_iff_exists.1 (hasked.1 hp)
    exact ⟨r, request?_eq_some.2 ⟨hg, hr⟩⟩

theorem Asking.read {t t' : Interpreter} {term : Term} (h : t.Asking) (hs : t.Sound)
    (hr : t.read = .ok (term, t')) : t'.Asking := by
  have ho := hasOutput_of_read hr
  obtain ⟨q, rfl, -⟩ := hs.read_eq hr
  refine ⟨fun hg hreq => ?_, fun a ha => (h.asked a ha).mono id id⟩
  exact absurd ((h.waits hg hreq).1.symm.trans ho) Bool.false_ne_true

theorem Asking.withGrammar {t : Interpreter} (h : t.Asking) (g : Grammar) (forced : Bool) :
    Asking { t with workspace := { t.workspace with grammar := some g, forced := forced } } :=
  ⟨fun hg => absurd hg (Option.some_ne_none _),
    fun a ha => (h.asked a ha).mono id fun _ => rfl⟩

end Interpreter

end TermStream
