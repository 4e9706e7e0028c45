import TermStream.Proofs.Interpreter.Sessions

namespace TermStream

namespace Activation

def hasMark (a : Activation) : Bool :=
  match a.frame with
  | .rule f => f.entered && f.marked
  | _ => false

def disablesSoftEnd (a : Activation) : Bool :=
  match a.frame with
  | .rule f => f.entered && f.disablesSoftEnd
  | _ => false

def contexts (a : Activation) : List KeywordContextId :=
  match a.frame with
  | .rule f => if f.entered && f.keywordsPushed then f.keywords.toList else []
  | _ => []

def isOpenBlock (a : Activation) : Bool :=
  match a.frame with
  | .block f => f.phase != .opening
  | _ => false

/-- Whether the frame passes over what comes before a statement or a declaration. -/
def leads (a : Activation) : Bool :=
  match a.frame with
  | .statement f => f.phase == .leading
  | .document f => match f.phase with
    | .leading => true
    | _ => false
  | _ => false

end Activation

/-- How many rules let no line break end a statement of the innermost open block. -/
def softEndRules (stack : List Activation) : Nat :=
  (stack.takeWhile fun a => !a.isOpenBlock).countP Activation.disablesSoftEnd

theorem held_contexts (stack : List Activation) :
    (held stack).contexts = stack.flatMap Activation.contexts := by
  induction stack with
  | nil => rfl
  | cons a below ih =>
    rw [List.flatMap_cons, ← ih]
    obtain ⟨frame, result⟩ := a
    cases frame with
    | document f => simp only [held, Frame.hold, Activation.contexts]; split <;> rfl
    | sequence f => rfl
    | statement f => simp only [held, Frame.hold, Activation.contexts]; split <;> rfl
    | block f => simp only [held, Frame.hold, Activation.contexts]; split <;> rfl
    | rule f =>
      simp only [held, Frame.hold, Activation.contexts]
      cases f.entered <;> rfl

theorem held_softEnds (stack : List Activation) : (held stack).softEnds = softEndRules stack := by
  induction stack with
  | nil => rfl
  | cons a below ih =>
    obtain ⟨frame, result⟩ := a
    cases frame with
    | document f =>
      have hh : (held (⟨.document f, result⟩ :: below)).softEnds = (held below).softEnds := by
        simp only [held, Frame.hold]
        split <;> rfl
      rw [hh, ih]
      rfl
    | sequence f => exact ih
    | statement f =>
      have hh : (held (⟨.statement f, result⟩ :: below)).softEnds = (held below).softEnds := by
        simp only [held, Frame.hold]
        split <;> rfl
      rw [hh, ih]
      rfl
    | block f =>
      by_cases hp : f.phase = .opening
      · simp [held, Frame.hold, hp, softEndRules, Activation.isOpenBlock, ih,
          Activation.disablesSoftEnd]
      · simp [held, Frame.hold, hp, softEndRules, Activation.isOpenBlock]
    | rule f =>
      have hc : softEndRules (⟨.rule f, result⟩ :: below) =
          softEndRules below + (f.entered && f.disablesSoftEnd).toNat := by
        cases hd : f.entered && f.disablesSoftEnd <;>
          simp [softEndRules, Activation.isOpenBlock, Activation.disablesSoftEnd, hd]
      rw [hc, ← ih]
      simp only [held, Frame.hold]
      cases f.entered <;> simp

theorem Shaped.held_marks {a : Activation} {below : List Activation} (h : Shaped (a :: below)) :
    (held below).marks = below.countP Activation.hasMark := by
  induction below generalizing a with
  | nil => rfl
  | cons b below ih =>
    have hb := ih h.2
    have ha := h.1
    obtain ⟨frame, result⟩ := b
    cases frame with
    | document f =>
      obtain ⟨g, context, hp⟩ := ha.document_body
      simp [held, Frame.hold, hp, hb, Activation.hasMark]
    | sequence f => simpa [held, Frame.hold, Activation.hasMark] using hb
    | statement f =>
      have hp : f.phase ≠ .leading := by
        rcases ha.statement_phase with hp | hp <;> simp [hp]
      simp [held, Frame.hold, hp, hb, Activation.hasMark]
    | block f =>
      simp only [held, Frame.hold]
      split <;> simp [hb, Activation.hasMark]
    | rule f =>
      have he := ((Frame.awaits_rule f _).1 ha).2
      simp only [held, Frame.hold, he, if_true, hb]
      cases hm : f.marked <;> simp [Activation.hasMark, he, hm]

/-- There is one mark for each rule that has put one, and one more if the frame on top is before a
statement or a declaration. -/
theorem Shaped.marks_eq {stack : List Activation} (h : Shaped stack) :
    (held stack).marks =
      stack.countP Activation.hasMark + (stack.head?.any Activation.leads).toNat := by
  cases stack with
  | nil => rfl
  | cons a below =>
    have hb := h.held_marks
    obtain ⟨frame, result⟩ := a
    cases frame with
    | document f =>
      simp only [held, Frame.hold]
      split
      · next hp => simp [hb, Activation.hasMark, Activation.leads, Resources.marked, hp]
      · next hp =>
        have hl : Activation.leads ⟨.document f, result⟩ = false := by
          unfold Activation.leads
          dsimp only
          split
          · next hp' => exact absurd hp' hp
          · rfl
        simp [hb, Activation.hasMark, hl]
    | sequence f => simpa [held, Frame.hold, Activation.hasMark, Activation.leads] using hb
    | statement f =>
      simp only [held, Frame.hold]
      split
      · next hp => simp [hb, Activation.hasMark, Activation.leads, Resources.marked, hp]
      · next hp => simp [hb, Activation.hasMark, Activation.leads, hp]
    | block f =>
      simp only [held, Frame.hold]
      split <;> simp [hb, Activation.hasMark, Activation.leads]
    | rule f =>
      simp only [held, Frame.hold]
      cases he : f.entered <;> cases hm : f.marked <;>
        simp [hb, Activation.hasMark, Activation.leads, he, hm]

theorem Saved.savedSoftEnd_eq {above below : List Activation} {f : BlockFrame}
    {result : CallResult} (h : Saved (above ++ ⟨.block f, result⟩ :: below))
    (hp : f.phase ≠ .opening) : f.savedSoftEnd = softEndRules below := by
  induction above with
  | nil => exact (h.1 hp).trans (held_softEnds below)
  | cons a above ih => exact ih h.2

namespace Interpreter

theorem hasOutput_of_run {fuel : Nat} {t : Interpreter} {input : Cell Phrase}
    (h : (t.run fuel input).1 = .ok .outputAvailable) :
    (t.run fuel input).2.1.workspace.queue.hasOutput = true := by
  induction fuel generalizing t input with
  | zero => cases h
  | succ fuel ih =>
    rw [run_succ] at h ⊢
    rcases hs : t.step input with ⟨_ | _ | progress, t', input'⟩
    · rw [hs] at h
      cases h
    · rw [hs] at h
      exact ih h
    · rw [hs] at h
      obtain rfl : progress = .outputAvailable := Except.ok.inj h
      cases step_ends hs with
      | output ho => exact ho

/-- At any moment of a session there is a mark for each rule that has put one, and one for a frame
that is before a statement or a declaration. The keywords are those that the running rules have
pushed and not given up. Line breaks are held by the rules above the innermost open block, and every
open block has saved the count of those below it. After the start no call fails, and output that is
reported can be read. -/
theorem Session.resources_follow_frames (calls : List Call) (hb : ∀ call ∈ calls, call.Builds) :
    let s := Session.new.performAll calls
    let t := s.interpreter
    t.workspace.queue.markCount =
        t.stack.countP Activation.hasMark + (t.stack.head?.any Activation.leads).toNat ∧
      t.workspace.keywords.contexts = t.stack.flatMap Activation.contexts ∧
      t.workspace.softEndDisabled = softEndRules t.stack ∧
      (∀ above f result below, t.stack = above ++ ⟨.block f, result⟩ :: below →
        f.phase ≠ .opening → f.savedSoftEnd = softEndRules below) ∧
      (t.started = true → ∀ fuel,
        (∀ e, (t.parse fuel s.cell).1 = .error e → e = .unfinished) ∧
        ((t.parse fuel s.cell).1 = .ok .outputAvailable →
          ∃ term t', (t.parse fuel s.cell).2.1.read = .ok (term, t'))) := by
  intro s t
  have hs : t.Sound := (Session.new_sound.performAll hb).interpreter
  have hr := hs.resources
  refine ⟨(congrArg Resources.marks hr).trans hs.shaped.marks_eq,
    (congrArg Resources.contexts hr).trans (held_contexts _),
    (congrArg Resources.softEnds hr).trans (held_softEnds _), ?_, ?_⟩
  · intro above f result below hstack hp
    exact Saved.savedSoftEnd_eq (hstack ▸ hs.saved) hp
  · intro hstarted fuel
    unfold Interpreter.parse
    rw [hstarted]
    cases hf : t.finished with
    | true => exact ⟨nofun, nofun⟩
    | false =>
      obtain ⟨hsound, herr⟩ := hs.run fuel s.cell
      refine ⟨herr, fun hout => ?_⟩
      obtain ⟨term, q, hread, -⟩ := hsound.exists_read (hasOutput_of_run hout)
      exact ⟨term, _, hread⟩

/-- A grammar whose statements are blocks in a rule that takes a mark, keywords and line breaks. -/
def guardingGrammar : Grammar where
  systemId := "guarding"
  isScript := true
  actions := #[.call 0 1 2, .done true, .done false, .call 1 1 2]
  rules := #[⟨"guarded", .actions 3, true, some 0, true⟩, ⟨"braces", .block 0, false, none, false⟩]
  contexts := #[⟨"statements", 0, none⟩]
  defaultContext := 0
  keywords := #["end"]
  keywordContexts := #[⟨"words", [("end", 0)]⟩]
  errors := .nil

/-- The calls up to the closing brace of a block that has been opened. -/
def guardingCalls : List Call :=
  [.start "in", .force guardingGrammar,
    .put (.ofToken .startBlock ⟨.simple .leftCurly, "\x7b", .start, ⟨1, 2, 1⟩, .nil⟩), .parse 30,
    .read, .parse 30,
    .put (.ofToken .endBlock ⟨.simple .rightCurly, "\x7d", ⟨1, 2, 1⟩, ⟨1, 3, 2⟩, .nil⟩)]

/-- Under the open block the rule still has its mark and its keywords, and the hold on line breaks
is saved in the block. -/
theorem Session.resources_follow_frames_block :
    let s := Session.new.performAll guardingCalls
    let t := s.interpreter
    (∀ call ∈ guardingCalls, call.Builds) ∧ t.stack.length = 7 ∧
      t.stack.countP Activation.hasMark = 1 ∧ t.workspace.queue.markCount = 1 ∧
      t.workspace.keywords.contexts = [0] ∧
      (∃ above f result below, t.stack = above ++ ⟨.block f, result⟩ :: below ∧
        softEndRules below = 1 ∧ f.savedSoftEnd = 1) ∧
      t.workspace.softEndDisabled = 0 ∧ (t.parse 30 s.cell).1 = .ok .outputAvailable ∧
      ∃ term t', (t.parse 30 s.cell).2.1.read = .ok (term, t') := by
  intro s t
  have hb : ∀ call ∈ guardingCalls, call.Builds := by
    simp [guardingCalls, Call.Builds, Grammar.built_of_dangling? (g := guardingGrammar) rfl]
  obtain ⟨hmarks, hkeywords, hsoft, hsaved, hparse⟩ := resources_follow_frames guardingCalls hb
  have hblock : ∃ above f result below, t.stack = above ++ ⟨.block f, result⟩ :: below ∧
      f.phase ≠ .opening ∧ softEndRules below = 1 := by
    refine ⟨[_], _, _, _, rfl, ?_, rfl⟩
    decide
  obtain ⟨above, f, result, below, hstack, hopen, hrules⟩ := hblock
  have hout : (t.parse 30 s.cell).1 = .ok .outputAvailable := rfl
  exact ⟨hb, rfl, rfl, hmarks, hkeywords,
    ⟨above, f, result, below, hstack, hrules, (hsaved above f result below hstack hopen).trans hrules⟩,
    hsoft, hout, (hparse rfl 30).2 hout⟩

end Interpreter

end TermStream
