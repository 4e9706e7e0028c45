import TermStream.Proofs.Standard.Moves

namespace TermStream

open MarkedQueue Descent

namespace Standard

def sequence (g : Grammar) : Frame := .sequence ⟨g, 0⟩

def statement (g : Grammar) (phase : StatementPhase) (succeeded : Bool) : Frame :=
  .statement ⟨g, 0, phase, succeeded, false⟩

def block (g : Grammar) (phase : BlockPhase) : Frame := .block ⟨g, 0, phase, 0⟩

def entry (g : Grammar) : Frame := .rule (RuleFrame.new g 0)

def rule (g : Grammar) (id : ActionId) : Frame :=
  .rule { RuleFrame.new g id with entered := true }

def document (g : Grammar) (f : DocumentFrame) : Frame := .document (f.goto (.body g 0))

def choice : ChoiceTable :=
  ⟨[(.significant, 2), (.startBlock, 5)], [],
    [(.simple .graphics, 3), (.simple .comma, 4), (.simple .bracket, 4)], 1⟩

def target (p : Phrase) : ActionId :=
  match p.kind with
  | .significant =>
    match p.tokenKind? with
    | some .graphics => 3
    | some .comma | some .bracket => 4
    | _ => 2
  | .startBlock => 5
  | _ => 1

theorem targetOf?_kindOnly {table : List (TokenKey × ActionId)}
    (h : ∀ e ∈ table, e.1 = e.1.kindOnly) (k : TokenKey) :
    (targetOf? table k).or (targetOf? table k.kindOnly) = targetOf? table k.kindOnly := by
  by_cases hk : k = k.kindOnly
  · rw [← hk, Option.or_self]
  · have hnone : table.find? (fun e => e.1 = k) = none := by
      rw [List.find?_eq_none]
      intro e he hek
      have hek : e.1 = k := by simpa using hek
      exact hk (hek ▸ h e he)
    rw [targetOf?, hnone]
    rfl

theorem select_eq (p : Phrase) (keyword : Option KeywordId) :
    choice.select p.kind (p.token.map Token.key) keyword = target p := by
  have hkeyword : keyword.bind (targetOf? []) = none := by cases keyword <;> rfl
  cases hk : p.kind with
  | significant =>
    simp only [ChoiceTable.select, choice, target, hk, if_true, ChoiceTable.significant?, hkeyword,
      Option.none_or, Phrase.tokenKind?]
    cases p.token with
    | none => rfl
    | some t =>
      simp only [Option.map_some, Option.bind_some]
      rw [targetOf?_kindOnly (by decide), TokenKey.kindOnly, Token.kind]
      cases t.key.kind <;> rfl
  | _ => simp [ChoiceTable.select, choice, target, hk, targetOf?]

end Standard

namespace Course

open Interpreter

variable {answer : GrammarReference → Grammar} {g : Grammar} {c : Course} {r : CallResult}
  {below : List Activation} {p q : Phrase} {ps : List Phrase} {out seen : List Term}

theorem goes_sequence_close (ha : ∀ r, (answer r).Built)
    (hk : p.kind = .endBlock ∨ p.kind = .eof) :
    Goes answer g ⟨⟨Standard.sequence g, r⟩ :: below, p :: ps, out⟩
      ⟨deliver .success below, p :: ps, out⟩ := by
  refine goes_keeping ha (.leave .success) (fun _ => rfl) (fun ws r _ => ⟨ws, ?_, rfl⟩) rfl
  rcases hk with hk | hk <;> simp [stepFrame, Standard.sequence, SequenceFrame.step, hk]

theorem goes_sequence_control (ha : ∀ r, (answer r).Built)
    (hk : p.kind = .control ∨ p.kind = .statementEnd ∧ p.hasToken = true) :
    Goes answer g ⟨⟨Standard.sequence g, r⟩ :: below, p :: ps, out⟩
      ⟨⟨Standard.sequence g, .none⟩ :: below, ps, out ++ [wrapped .control .control p]⟩ := by
  refine goes_reading ha (.again (Standard.sequence g)) none [wrapped .control .control p]
    (fun _ => rfl) (fun ws r hw => ⟨ws.take p .control .control, ?_, hw.toList_take p _ _⟩) rfl
  rcases hk with hk | ⟨hk, ht⟩
  · simp [stepFrame, Standard.sequence, SequenceFrame.step, hk]
  · simp [stepFrame, Standard.sequence, SequenceFrame.step, hk, ht]

theorem goes_sequence_drop (ha : ∀ r, (answer r).Built) (hk : p.kind = .statementEnd)
    (ht : p.hasToken = false) :
    Goes answer g ⟨⟨Standard.sequence g, r⟩ :: below, p :: ps, out⟩
      ⟨⟨Standard.sequence g, .none⟩ :: below, ps, out ++ []⟩ := by
  refine goes_reading ha (.again (Standard.sequence g)) none [] (fun _ => rfl)
    (fun ws r _ => ⟨ws.consume p, ?_, (List.append_nil _).symm⟩) rfl
  simp [stepFrame, Standard.sequence, SequenceFrame.step, hk, ht]

theorem goes_sequence_call (ha : ∀ r, (answer r).Built)
    (hk : isPart p = true ∨ isTrivia p = true) :
    Goes answer g ⟨⟨Standard.sequence g, r⟩ :: below, p :: ps, out⟩
      ⟨⟨Standard.statement g .start false, .none⟩ :: ⟨Standard.sequence g, .none⟩ :: below, p :: ps,
        out⟩ := by
  refine goes_keeping ha (.call (Standard.sequence g) (Standard.statement g .start false))
    (fun _ => rfl) (fun ws r _ => ⟨ws, ?_, rfl⟩) rfl
  cases hp : p.kind with
  | control | statementEnd | endBlock | eof => simp [isPart, isTrivia, hp] at hk
  | _ =>
    simp [stepFrame, Standard.sequence, Standard.statement, SequenceFrame.step, StatementFrame.new,
      hp]

/-- A course in which what stands in front of a statement is passed over: the terms `seen` have been
reported since the mark of the statement. -/
structure Leading (g : Grammar) (c : Course) (below : List Activation) (ps : List Phrase)
    (out seen : List Term) : Prop where
  shows : ∃ r, c.Shows g ⟨⟨Standard.statement g .leading false, r⟩ :: below, ps, out ++ seen⟩
  parts : ∃ front, c.interpreter.workspace.queue.Parts front seen ∧ c.terms ++ front = out

theorem Leading.quiet (h : c.Leading g below ps out seen) :
    c.interpreter.workspace.queue.hasOutput = false := by
  obtain ⟨r, hs⟩ := h.shows
  obtain ⟨front, hparts, -⟩ := h.parts
  cases ho : c.interpreter.workspace.queue.hasOutput with
  | false => rfl
  | true =>
    exact absurd ((hasOutput_iff hs.sound.interpreter.queued.sound).1 ho).1 hparts.marks_ne_nil

theorem Shows.mark (ha : ∀ r, (answer r).Built)
    (h : c.Shows g ⟨⟨Standard.statement g .start false, r⟩ :: below, ps, out⟩) :
    ∃ d, c.Leads answer d ∧ d.Leading g below ps out [] := by
  obtain ⟨d, hcd, hd, ho⟩ := h.quiet ha
  have ht : stepFrame ⟨Standard.statement g .start false, r⟩ below d.interpreter.workspace d.cell =
      .ok ⟨.again (Standard.statement g .leading false), below, d.interpreter.workspace.pushMark,
        d.cell⟩ := rfl
  obtain ⟨hde, he⟩ := hd.leads_turn ha rfl ho ht rfl
  refine ⟨_, hcd.trans hde, ⟨.none, ?_⟩, d.interpreter.workspace.queue.toList,
    hd.sound.interpreter.queued.sound.pushMark_parts, hd.terms_eq⟩
  have hphrases : d.cell.toList ++ d.phrases = ps := hd.phrases_eq
  have hterms : d.terms ++ d.interpreter.workspace.pushMark.queue.toList = out := by
    rw [Workspace.pushMark, toList_pushMark]
    exact hd.terms_eq
  rw [List.append_nil, ← hphrases, ← hterms]
  exact he

theorem Leading.fill (ha : ∀ r, (answer r).Built) (h : c.Leading g below (p :: ps) out seen) :
    ∃ d, c.Leads answer d ∧ d.Leading g below (p :: ps) out seen ∧ d.cell = some p ∧
      d.phrases = ps := by
  obtain ⟨r, hs⟩ := h.shows
  obtain ⟨front, hparts, hout⟩ := h.parts
  obtain ⟨d, f, r', hf, hcd, hd, hws, hcell, hphrases, hterms⟩ := hs.fill ha h.quiet rfl
  obtain rfl : f = Standard.statement g .leading false := by rcases hf with rfl | rfl <;> rfl
  exact ⟨d, hcd, ⟨⟨r', hd⟩, front, by rwa [hws], by rwa [hterms]⟩, hcell, hphrases⟩

theorem Leading.pass (ha : ∀ r, (answer r).Built) (h : c.Leading g below (p :: ps) out seen)
    (hk : isTrivia p = true) :
    ∃ d, c.Leads answer d ∧ d.Leading g below ps out (seen ++ [passed p]) := by
  obtain ⟨d, hcd, hd, hcell, hphrases⟩ := h.fill ha
  obtain ⟨r, hs⟩ := hd.shows
  obtain ⟨front, hparts, hout⟩ := hd.parts
  have ht : stepFrame ⟨Standard.statement g .leading false, r⟩ below d.interpreter.workspace
      d.cell = .ok ⟨.again (Standard.statement g .leading false), below, d.interpreter.workspace.skip p,
        none⟩ := by
    rw [hcell]
    cases hp : p.kind with
    | ignorable | softStatementEnd =>
      simp [stepFrame, Standard.statement, StatementFrame.step, StatementFrame.leading, hp]
    | _ => simp [isTrivia, hp] at hk
  obtain ⟨hde, he⟩ := hs.leads_turn ha rfl hd.quiet ht rfl
  have hq := hs.serves.toList_skip p
  refine ⟨_, hcd.trans hde, ⟨.none, ?_⟩, front, ?_, hout⟩
  · have hterms : d.terms ++ d.interpreter.workspace.queue.toList = out ++ seen := hs.terms_eq
    rw [← List.append_assoc, ← hterms, List.append_assoc, ← hq, ← hphrases]
    exact he
  · have hstamp : d.interpreter.workspace.stamp (.ignorable p) = passed p := hs.serves.stamp_eq rfl
    rw [← hstamp]
    exact hparts.append _

theorem Leading.pass_all (ha : ∀ r, (answer r).Built) {leading : List Phrase}
    (h : c.Leading g below (leading ++ ps) out seen) (hk : ∀ p ∈ leading, isTrivia p = true) :
    ∃ d, c.Leads answer d ∧ d.Leading g below ps out (seen ++ leading.map passed) := by
  induction leading generalizing c seen with
  | nil =>
    refine ⟨c, .refl answer c, ?_⟩
    rw [List.map_nil, List.append_nil]
    exact h
  | cons p leading ih =>
    obtain ⟨d, hcd, hd⟩ := h.pass ha (hk p List.mem_cons_self)
    obtain ⟨e, hde, he⟩ := ih hd fun q hq => hk q (List.mem_cons_of_mem _ hq)
    refine ⟨e, hcd.trans hde, ?_⟩
    rwa [List.append_assoc] at he

theorem Leading.markCount_pos (h : c.Leading g below ps out seen) :
    0 < c.interpreter.workspace.queue.markCount := by
  obtain ⟨front, hparts, -⟩ := h.parts
  exact List.length_pos_iff.2 hparts.marks_ne_nil

theorem Leading.giveUp (ha : ∀ r, (answer r).Built) (h : c.Leading g below (p :: ps) out seen)
    (hp : isPart p = false) (ht : isTrivia p = false) :
    ∃ d, c.Leads answer d ∧ d.Shows g ⟨deliver .none below, p :: ps, out ++ seen⟩ := by
  obtain ⟨d, hcd, hd, hcell, hphrases⟩ := h.fill ha
  obtain ⟨r, hs⟩ := hd.shows
  obtain ⟨ws₁, hm⟩ := Workspace.exists_popMark hd.markCount_pos
  have hstep : stepFrame ⟨Standard.statement g .leading false, r⟩ below d.interpreter.workspace
      d.cell = .ok ⟨.leave .none, below, ws₁, some p⟩ := by
    rw [hcell]
    cases hk : p.kind with
    | significant | startBlock => simp [isPart, hk] at hp
    | ignorable | softStatementEnd => simp [isTrivia, hk] at ht
    | _ =>
      simp only [stepFrame, Standard.statement, StatementFrame.step, StatementFrame.leading, hk, hm]
      rfl
  obtain ⟨hde, he⟩ := hs.leads_turn ha rfl hd.quiet hstep rfl
  refine ⟨_, hcd.trans hde, ?_⟩
  obtain ⟨q, hq, rfl⟩ := Workspace.popMark_ok hm
  have hterms : d.terms ++ q.toList = out ++ seen := by
    rw [toList_popMark hq]
    exact hs.terms_eq
  rw [← hphrases, ← hterms]
  exact he

/-- The start of the statement comes in front of what has been passed over. -/
theorem Leading.enter (ha : ∀ r, (answer r).Built) {leading : List Phrase}
    (h : c.Leading g below (p :: ps) out (leading.map passed)) (hp : isPart p = true) :
    ∃ d, c.Leads answer d ∧
      d.Shows g ⟨⟨Standard.entry g, .none⟩ :: ⟨Standard.statement g .body false, .none⟩ :: below,
        p :: ps, out ++ before .statementStart (leading.headD p) :: leading.map passed⟩ := by
  obtain ⟨d, hcd, hd, hcell, hphrases⟩ := h.fill ha
  obtain ⟨r, hs⟩ := hd.shows
  obtain ⟨front, hparts, hout⟩ := hd.parts
  let start : Term := .event .statementStart .unknown
    (d.interpreter.workspace.markedStart?.getD p.start)
  obtain ⟨ws₁, ws₂, hst, hm⟩ :=
    Workspace.exists_statementStart hs.serves.queued hd.markCount_pos start
  have hstep : stepFrame ⟨Standard.statement g .leading false, r⟩ below d.interpreter.workspace
      d.cell = .ok ⟨.call (Standard.statement g .body false) (Standard.entry g), below, ws₂,
        some p⟩ := by
    rw [hcell]
    cases hk : p.kind with
    | significant | startBlock =>
      simp only [stepFrame, Standard.statement, StatementFrame.step, StatementFrame.leading, hk]
      rw [hst]
      simp only [Halt.ofMisuse, bind, Except.bind, hm]
      obtain ⟨script, errors, rfl⟩ := hs.standard
      rfl
    | _ => simp [isPart, hk] at hp
  obtain ⟨hde, he⟩ := hs.leads_turn ha rfl hd.quiet hstep rfl
  refine ⟨_, hcd.trans hde, ?_⟩
  obtain ⟨q, rfl, hq⟩ :=
    Workspace.toList_startStatement hs.serves.queued hs.fronted hparts hst hm
  have hstart : d.interpreter.workspace.stamp start = before .statementStart (leading.headD p) := by
    rw [hs.serves.stamp_eq rfl]
    change stamped (.event _ _ _) = stamped (.event _ _ _)
    rw [Workspace.markedStart?, hparts.peekAtMark?_eq]
    cases leading <;> rfl
  have hterms : d.terms ++ q.toList =
      out ++ before .statementStart (leading.headD p) :: leading.map passed := by
    rw [hq, hstart, ← List.append_assoc, hout]
  rw [← hphrases, ← hterms]
  exact he

/-- What stands in front of a statement is passed over, and then its rule starts. -/
theorem goes_statement (ha : ∀ r, (answer r).Built) {leading : List Phrase}
    (hl : ∀ p ∈ leading, isTrivia p = true) (hp : isPart p = true) :
    Goes answer g ⟨⟨Standard.sequence g, r⟩ :: below, leading ++ p :: ps, out⟩
      ⟨⟨Standard.entry g, .none⟩ :: ⟨Standard.statement g .body false, .none⟩ ::
        ⟨Standard.sequence g, .none⟩ :: below, p :: ps,
        out ++ before .statementStart (leading.headD p) :: leading.map passed⟩ := by
  have hcall : Goes answer g ⟨⟨Standard.sequence g, r⟩ :: below, leading ++ p :: ps, out⟩
      ⟨⟨Standard.statement g .start false, .none⟩ :: ⟨Standard.sequence g, .none⟩ :: below,
        leading ++ p :: ps, out⟩ := by
    cases leading with
    | nil => exact goes_sequence_call ha (.inl hp)
    | cons q leading => exact goes_sequence_call ha (.inr (hl q List.mem_cons_self))
  intro c hc
  obtain ⟨c₁, h₁, hc₁⟩ := hcall c hc
  obtain ⟨c₂, h₂, hc₂⟩ := hc₁.mark ha
  obtain ⟨c₃, h₃, hc₃⟩ := hc₂.pass_all ha hl
  obtain ⟨c₄, h₄, hc₄⟩ := hc₃.enter ha hp
  exact ⟨c₄, ((h₁.trans h₂).trans h₃).trans h₄, hc₄⟩

theorem goes_no_statement (ha : ∀ r, (answer r).Built) {leading : List Phrase} (hn : leading ≠ [])
    (hl : ∀ p ∈ leading, isTrivia p = true) (hp : isPart p = false) (ht : isTrivia p = false) :
    Goes answer g ⟨⟨Standard.sequence g, r⟩ :: below, leading ++ p :: ps, out⟩
      ⟨⟨Standard.sequence g, .none⟩ :: below, p :: ps, out ++ leading.map passed⟩ := by
  obtain ⟨q, leading, rfl⟩ := List.exists_cons_of_ne_nil hn
  intro c hc
  obtain ⟨c₁, h₁, hc₁⟩ := goes_sequence_call ha (.inr (hl q List.mem_cons_self)) c hc
  obtain ⟨c₂, h₂, hc₂⟩ := hc₁.mark ha
  change c₂.Leading g _ (q :: leading ++ p :: ps) out [] at hc₂
  obtain ⟨c₃, h₃, hc₃⟩ := hc₂.pass_all ha hl
  obtain ⟨c₄, h₄, hc₄⟩ := hc₃.giveUp ha hp ht
  exact ⟨c₄, ((h₁.trans h₂).trans h₃).trans h₄, hc₄⟩

theorem stepFrame_entry {ws : Workspace} (h : ws.keywords.contexts = []) (r : CallResult)
    (below : List Activation) (input : Cell Phrase) :
    stepFrame ⟨Standard.entry g, r⟩ below ws input =
      stepFrame ⟨Standard.rule g 0, r⟩ below ws input := by
  have hdepth : ws.keywords.depth = 0 := congrArg List.length h
  have hentering : (RuleFrame.new g 0).entering ws =
      ({ RuleFrame.new g 0 with entered := true }, ws) := by
    change ({ RuleFrame.new g 0 with
      entered := true, keywordDepth := ws.keywords.depth }, ws) = _
    rw [hdepth]
    rfl
  change RuleFrame.step (RuleFrame.new g 0) below ws input r =
    RuleFrame.step { RuleFrame.new g 0 with entered := true } below ws input r
  rw [RuleFrame.step_eq, RuleFrame.step_eq, hentering]
  rfl

theorem stepFrame_advance {ws : Workspace} (hg : g.IsStandard)
    (h : ws.isSkippable p true = false) (r : CallResult) (below : List Activation) :
    stepFrame ⟨Standard.rule g 0, r⟩ below ws (some p) =
      .ok ⟨.again (Standard.rule g 6), below, ws, some p⟩ := by
  obtain ⟨script, errors, rfl⟩ := hg
  change (if ws.isSkippable p true then _ else _) = _
  rw [h]
  rfl

theorem goes_entry (ha : ∀ r, (answer r).Built) (hp : isPart p = true) :
    Goes answer g ⟨⟨Standard.entry g, r⟩ :: below, p :: ps, out⟩
      ⟨⟨Standard.rule g 6, .none⟩ :: below, p :: ps, out⟩ := by
  have hskip : ∀ ws : Workspace, ws.isSkippable p true = false := by
    intro ws
    cases hk : p.kind with
    | ignorable | softStatementEnd => simp [isPart, hk] at hp
    | _ => simp [Workspace.isSkippable, hk]
  have h : Goes answer g ⟨⟨Standard.entry g, r⟩ :: below, p :: ps, out⟩
      ⟨⟨Standard.rule g 6, .none⟩ :: below, p :: ps, out ++ []⟩ := by
    refine goes_asking ha (Standard.rule g 0) (.again (Standard.rule g 6)) (some p) []
      (fun ws hw => ?_) (fun f ws r hf hw => ⟨ws, ?_, (List.append_nil _).symm⟩) rfl
    · rw [stepFrame_entry hw.contexts_eq]
      obtain ⟨script, errors, rfl⟩ := hw.standard
      rfl
    · rcases hf with rfl | rfl
      · rw [stepFrame_entry hw.contexts_eq, stepFrame_advance hw.standard (hskip ws)]
      · exact stepFrame_advance hw.standard (hskip ws) r below
  rwa [List.append_nil] at h

theorem goes_rule_ignorable (ha : ∀ r, (answer r).Built) (hk : p.kind = .ignorable) :
    Goes answer g ⟨⟨Standard.rule g 0, r⟩ :: below, p :: ps, out⟩
      ⟨⟨Standard.rule g 0, .none⟩ :: below, ps, out ++ [passed p]⟩ := by
  apply goes_of_standard
  rintro ⟨script, errors, rfl⟩
  let g := (Grammar.standard script).withLoadErrors errors
  refine goes_reading ha (.again (Standard.rule g 0)) none [passed p] (fun _ => rfl)
    (fun ws r hw => ⟨ws.skip p, ?_, hw.toList_skip p⟩) rfl
  change (if ws.isSkippable p true then _ else _) = _
  rw [if_pos (by simp [Workspace.isSkippable, hk])]
  rfl

theorem goes_rule_advance (ha : ∀ r, (answer r).Built) (hk : p.kind ≠ .ignorable)
    (hb : (held below).softEnds = 0) :
    Goes answer g ⟨⟨Standard.rule g 0, r⟩ :: below, p :: ps, out⟩
      ⟨⟨Standard.rule g 6, .none⟩ :: below, p :: ps, out⟩ := by
  apply goes_of_standard
  rintro ⟨script, errors, rfl⟩
  let g := (Grammar.standard script).withLoadErrors errors
  refine goes_keeping ha (.again (Standard.rule g 6)) (fun _ => rfl)
    (fun ws r hw => ⟨ws, stepFrame_advance hw.standard ?_ r below, rfl⟩) rfl
  have hs := hw.softEndEnabled hb
  cases hp : p.kind with
  | ignorable => exact absurd hp hk
  | _ => simp [Workspace.isSkippable, hp, hs]

theorem goes_rule_choice (ha : ∀ r, (answer r).Built) :
    Goes answer g ⟨⟨Standard.rule g 6, r⟩ :: below, p :: ps, out⟩
      ⟨⟨Standard.rule g (Standard.target p), .none⟩ :: below, p :: ps, out⟩ := by
  apply goes_of_standard
  rintro ⟨script, errors, rfl⟩
  let g := (Grammar.standard script).withLoadErrors errors
  refine goes_keeping ha (.again (Standard.rule g (Standard.target p))) (fun _ => rfl)
    (fun ws r hw => ?_) rfl
  have hfits : ws.keywords.Fits g := by
    intro k hk
    rw [hw.contexts_eq] at hk
    cases hk
  obtain ⟨⟨keyword, keywords⟩, hc⟩ := hfits.exists_classify p
  refine ⟨{ ws with keywords := keywords }, ?_, rfl⟩
  have hstep : stepFrame ⟨Standard.rule g 6, r⟩ below ws (some p) = (do
      let c ← Halt.ofMissing (ws.keywords.classify g p)
      return ⟨.again (Standard.rule g (Standard.choice.select p.kind (p.token.map Token.key) c.1)),
        below, { ws with keywords := c.2 }, some p⟩) := rfl
  rw [hstep, hc]
  change Except.ok _ = Except.ok _
  rw [Standard.select_eq]

theorem goes_rule_take (ha : ∀ r, (answer r).Built) {id : ActionId} {kind : TermKind} {role : Role}
    (haction : g.action id = .ok (.report kind role none true 0))
    (hk : p.kind = .significant) :
    Goes answer g ⟨⟨Standard.rule g id, r⟩ :: below, p :: ps, out⟩
      ⟨⟨Standard.rule g 0, .none⟩ :: below, ps, out ++ [wrapped kind role p]⟩ := by
  refine goes_reading ha (.again (Standard.rule g 0)) none [wrapped kind role p] (fun ws => ?_)
    (fun ws r hw => ⟨ws.take p kind role, ?_, hw.toList_take p kind role⟩) rfl
  · change (do let a ← Halt.ofMissing (g.action id); _) = _
    rw [haction]
    rfl
  · change (do let a ← Halt.ofMissing (g.action id); _) = _
    rw [haction]
    simp only [Halt.ofMissing, bind, Except.bind, RuleFrame.act, hk]
    rfl

theorem goes_rule_value (ha : ∀ r, (answer r).Built) (hk : p.kind = .significant) :
    Goes answer g ⟨⟨Standard.rule g 6, r⟩ :: below, p :: ps, out⟩
      ⟨⟨Standard.rule g 0, .none⟩ :: below, ps, out ++ [value p]⟩ := by
  apply goes_of_standard
  rintro ⟨script, errors, rfl⟩
  apply (goes_rule_choice ha).trans
  rw [value]
  simp only [Standard.target, hk]
  cases p.tokenKind? with
  | none => refine goes_rule_take ha ?_ hk; rfl
  | some kind => cases kind <;> (refine goes_rule_take ha ?_ hk; rfl)

/-- The rule is done when a phrase comes that is not a part of the statement. -/
theorem goes_rule_done (ha : ∀ r, (answer r).Built) (hk : p.kind ≠ .ignorable)
    (hp : isPart p = false) (hb : (held below).softEnds = 0) :
    Goes answer g
      ⟨⟨Standard.rule g 0, r⟩ :: ⟨Standard.statement g .body false, .none⟩ :: below, p :: ps, out⟩
      ⟨⟨Standard.statement g .tail true, .none⟩ :: below, p :: ps, out⟩ := by
  apply goes_of_standard
  rintro ⟨script, errors, rfl⟩
  let g := (Grammar.standard script).withLoadErrors errors
  have htarget : Standard.target p = 1 := by
    cases hk : p.kind with
    | significant | startBlock => simp [isPart, hk] at hp
    | _ => simp [Standard.target, hk]
  have hb' : (held (⟨Standard.statement g .body false, .none⟩ :: below)).softEnds = 0 := hb
  apply (goes_rule_advance ha hk hb').trans
  apply (goes_rule_choice ha).trans
  rw [htarget]
  apply (goes_silent ha (.leave .success) (fun ws input _ => ⟨ws, rfl, rfl⟩) rfl).trans
  exact goes_silent ha (.again (Standard.statement g .tail true))
    (fun ws input _ => ⟨{ ws with recovering := false }, rfl, rfl⟩) rfl

theorem goes_statement_finish (ha : ∀ r, (answer r).Built)
    (hk : p.kind = .softStatementEnd ∨ p.kind = .statementEnd) (hb : (held below).softEnds = 0) :
    Goes answer g ⟨⟨Standard.statement g .tail true, r⟩ :: below, p :: ps, out⟩
      ⟨deliver .success below, ps,
        out ++ [wrapped .statementEnd (if p.hasToken then .separator else .unknown) p]⟩ := by
  refine goes_reading ha (.leave .success) none _ (fun _ => rfl)
    (fun ws r hw => ⟨ws.take p .statementEnd _, ?_, hw.toList_take p _ _⟩) rfl
  have hs := hw.softEndEnabled hb
  rcases hk with hk | hk
  · simp [stepFrame, Standard.statement, StatementFrame.step, StatementFrame.tail, hk, hs]
  · simp [stepFrame, Standard.statement, StatementFrame.step, StatementFrame.tail, hk]

theorem goes_statement_breakOff (ha : ∀ r, (answer r).Built)
    (hk : p.kind = .control ∨ p.kind = .endBlock ∨ p.kind = .eof) :
    Goes answer g ⟨⟨Standard.statement g .tail true, r⟩ :: below, p :: ps, out⟩
      ⟨deliver .success below, p :: ps, out ++ [before .statementEnd p]⟩ := by
  refine goes_reading ha (.leave .success) (some p) [before .statementEnd p] (fun _ => rfl)
    (fun ws r hw => ⟨ws.report (.event .statementEnd .unknown p.start), ?_, hw.toList_report rfl⟩)
    rfl
  rcases hk with hk | hk | hk <;>
    simp [stepFrame, Standard.statement, StatementFrame.step, StatementFrame.tail, hk]

theorem goes_block_start (ha : ∀ r, (answer r).Built) (hk : p.kind = .startBlock)
    (hb : (held below).softEnds = 0) :
    Goes answer g ⟨⟨Standard.rule g 6, r⟩ :: below, p :: ps, out⟩
      ⟨⟨Standard.sequence g, .none⟩ :: ⟨Standard.block g .body, .none⟩ ::
        ⟨Standard.rule g 5, .none⟩ :: below, ps, out ++ [wrapped .blockStart .separator p]⟩ := by
  apply goes_of_standard
  rintro ⟨script, errors, rfl⟩
  let g := (Grammar.standard script).withLoadErrors errors
  have htarget : Standard.target p = 5 := by simp [Standard.target, hk]
  apply (goes_rule_choice ha).trans
  rw [htarget]
  apply (goes_silent ha (.call (Standard.rule g 5) (Standard.block g .opening))
    (fun ws input _ => ⟨ws, rfl, rfl⟩) rfl).trans
  refine goes_reading ha (.call (Standard.block g .body) (Standard.sequence g)) none _ (fun _ => rfl)
    (fun ws r hw => ⟨{ ws.take p .blockStart .separator with softEndDisabled := 0 }, ?_,
      hw.toList_take p _ _⟩) rfl
  have hs : ws.softEndDisabled = 0 := (congrArg Resources.softEnds hw.resources_eq).trans hb
  simp [stepFrame, Standard.block, Standard.sequence, BlockFrame.step, hk, hs]

theorem goes_block_body (ha : ∀ r, (answer r).Built) {qs : List Phrase} {out' : List Term}
    (h : Goes answer g
      ⟨⟨Standard.block g .closing, .none⟩ :: ⟨Standard.rule g 5, .none⟩ :: below, ps, out⟩
      ⟨⟨Standard.rule g 5, .success⟩ :: below, qs, out'⟩) :
    Goes answer g ⟨⟨Standard.block g .body, r⟩ :: ⟨Standard.rule g 5, .none⟩ :: below, ps, out⟩
      ⟨⟨Standard.rule g 0, .none⟩ :: below, qs, out'⟩ := by
  apply goes_of_standard
  rintro ⟨script, errors, rfl⟩
  let g := (Grammar.standard script).withLoadErrors errors
  apply (goes_silent ha (.again (Standard.block g .closing))
    (fun ws _ _ => ⟨ws, rfl, rfl⟩) rfl).trans
  apply h.trans
  exact goes_silent ha (.again (Standard.rule g 0)) (fun ws _ _ => ⟨ws, rfl, rfl⟩) rfl

theorem goes_block_close (ha : ∀ r, (answer r).Built) (hk : p.kind = .endBlock) :
    Goes answer g ⟨⟨Standard.block g .body, r⟩ :: ⟨Standard.rule g 5, .none⟩ :: below, p :: ps, out⟩
      ⟨⟨Standard.rule g 0, .none⟩ :: below, ps, out ++ [wrapped .blockEnd .separator p]⟩ := by
  apply goes_block_body ha
  refine goes_reading ha (.leave .success) none _ (fun _ => rfl)
    (fun ws r hw => ⟨{ ws.take p .blockEnd .separator with softEndDisabled := 0 }, ?_,
      hw.toList_take p _ _⟩) rfl
  simp [stepFrame, Standard.block, BlockFrame.step, hk]

theorem goes_block_breakOff (ha : ∀ r, (answer r).Built) (hk : p.kind ≠ .endBlock) :
    Goes answer g ⟨⟨Standard.block g .body, r⟩ :: ⟨Standard.rule g 5, .none⟩ :: below, p :: ps, out⟩
      ⟨⟨Standard.rule g 0, .none⟩ :: below, p :: ps, out ++ [before .blockEnd p]⟩ := by
  apply goes_block_body ha
  refine goes_reading ha (.leave .success) (some p) _ (fun _ => rfl)
    (fun ws r hw => ⟨{ ws.report (.event .blockEnd .unknown p.start) with softEndDisabled := 0 },
      ?_, hw.toList_report rfl⟩) rfl
  simp [stepFrame, Standard.block, BlockFrame.step, hk]

end Course

end TermStream
