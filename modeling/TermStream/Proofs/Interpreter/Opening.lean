import TermStream.Proofs.Interpreter.Preface

namespace TermStream

open MarkedQueue Workspace

namespace Workspace

variable {ws ws₁ ws₂ : Workspace} {ts us : List Term}

def Reports (ws ws' : Workspace) (ts : List Term) : Prop :=
  ws.Queued → ws'.Queued ∧ ws'.queue.toList = ws.queue.toList ++ ts

theorem Reports.trans (h : ws.Reports ws₁ ts) (h' : ws₁.Reports ws₂ us) :
    ws.Reports ws₂ (ts ++ us) := by
  intro hq
  obtain ⟨hq₁, hl₁⟩ := h hq
  obtain ⟨hq₂, hl₂⟩ := h' hq₁
  exact ⟨hq₂, by rw [hl₂, hl₁, List.append_assoc]⟩

theorem reports_refl (ws : Workspace) : ws.Reports ws [] := fun hq => ⟨hq, (List.append_nil _).symm⟩

theorem reports_report (ws : Workspace) (t : Term) : ws.Reports (ws.report t) [ws.stamp t] :=
  fun hq => ⟨(ws.wraps_report t hq).1, hq.sound.toList_append _⟩

theorem reports_take (ws : Workspace) (p : Phrase) (kind : TermKind) (role : Role) :
    ws.Reports (ws.take p kind role) [ws.stamp (.wrap kind role p)] :=
  fun hq => ⟨(ws.wraps_take p kind role hq).1, hq.sound.toList_append _⟩

theorem reports_skip (ws : Workspace) (p : Phrase) :
    ws.Reports (ws.skip p) [ws.stamp (.ignorable p)] :=
  fun hq => ⟨(ws.wraps_skip p hq).1, hq.sound.toList_append _⟩

theorem reports_pushMark (ws : Workspace) : ws.Reports ws.pushMark [] :=
  fun hq => ⟨(ws.wraps_pushMark hq).1, by simp [pushMark]⟩

theorem reports_popMark (h : ws.popMark = .ok ws₁) : ws.Reports ws₁ [] := by
  intro hq
  refine ⟨(wraps_popMark h hq).1, ?_⟩
  obtain ⟨q, hp, rfl⟩ := popMark_ok h
  rw [List.append_nil]
  exact MarkedQueue.toList_popMark hp

theorem exists_reports_reportError (ws : Workspace) (code : ErrorCode) (args : List String)
    (start stop : Position) :
    ∃ t : Term, t.IsError code args ∧ ws.Reports (ws.reportError code args start stop) [t] := by
  refine ⟨_, ⟨⟨ws.source, start, stop⟩, ?_⟩, reports_report _ _⟩
  rfl

end Workspace

namespace DocumentFrame

variable {f : DocumentFrame} {below : List Activation} {ws : Workspace} {input : Cell Phrase}
  {turn : Turn} {read queued : List Term} {strings : List AcceptedString}

/-- What a document has come to before its grammar is there, when the terms `read` have been read
and the terms `queued` have not. -/
def Opens (f : DocumentFrame) (read queued : List Term) : Prop :=
  match f.phase with
  | .start => f.Remembers [] ∧ read = [] ∧ queued = []
  | .leading => f.Remembers [] ∧ read = [] ∧ ∀ t ∈ queued, t.IsTrivia
  | .properties => ∃ strings, f.Remembers strings ∧ Declares none (read ++ queued) strings
  | .expectString property =>
    ∃ strings, f.Remembers strings ∧ Declares (some property) (read ++ queued) strings
  | .selectGrammar | .awaitGrammar | .loaded =>
    ∃ strings, f.Remembers strings ∧ Preface (read ++ queued) strings
  | .body _ _ => False

theorem opens_start (hp : f.phase = .start) :
    f.Opens read queued ↔ f.Remembers [] ∧ read = [] ∧ queued = [] := by rw [Opens, hp]

theorem opens_leading (hp : f.phase = .leading) :
    f.Opens read queued ↔ f.Remembers [] ∧ read = [] ∧ ∀ t ∈ queued, t.IsTrivia := by
  rw [Opens, hp]

theorem opens_properties (hp : f.phase = .properties) :
    f.Opens read queued ↔
      ∃ strings, f.Remembers strings ∧ Declares none (read ++ queued) strings := by rw [Opens, hp]

theorem opens_expectString {property : DoctypeProperty} (hp : f.phase = .expectString property) :
    f.Opens read queued ↔
      ∃ strings, f.Remembers strings ∧ Declares (some property) (read ++ queued) strings := by
  rw [Opens, hp]

theorem opens_complete
    (hp : f.phase = .selectGrammar ∨ f.phase = .awaitGrammar ∨ f.phase = .loaded) :
    f.Opens read queued ↔ ∃ strings, f.Remembers strings ∧ Preface (read ++ queued) strings := by
  rcases hp with hp | hp | hp <;> rw [Opens, hp]

theorem not_opens_body {g : Grammar} {context : ContextId} (hp : f.phase = .body g context) :
    ¬ f.Opens read queued := by
  rw [Opens, hp]
  exact id

theorem Opens.unannounced (h : f.Opens read queued) : Unannounced (read ++ queued) := by
  cases hp : f.phase with
  | start =>
    obtain ⟨-, rfl, rfl⟩ := (opens_start hp).1 h
    exact unannounced_nil
  | leading =>
    obtain ⟨-, rfl, ht⟩ := (opens_leading hp).1 h
    exact unannounced_of_trivia ht
  | properties =>
    obtain ⟨strings, -, hd⟩ := (opens_properties hp).1 h
    exact hd.unannounced
  | expectString property =>
    obtain ⟨strings, -, hd⟩ := (opens_expectString hp).1 h
    exact hd.unannounced
  | selectGrammar | awaitGrammar | loaded =>
    obtain ⟨strings, -, hd⟩ := (opens_complete (by simp [hp])).1 h
    exact hd.unannounced
  | body g context => exact absurd h (not_opens_body hp)

theorem Opens.exists_accepts (h : f.Opens read queued) :
    ∃ strings, f.Remembers strings ∧ Accepts (read ++ queued) strings := by
  cases hp : f.phase with
  | start =>
    obtain ⟨hf, rfl, rfl⟩ := (opens_start hp).1 h
    exact ⟨[], hf, .inr (.trivia _ (List.forall_mem_nil _))⟩
  | leading =>
    obtain ⟨hf, rfl, ht⟩ := (opens_leading hp).1 h
    exact ⟨[], hf, .inr (.trivia _ ht)⟩
  | properties =>
    obtain ⟨strings, hf, hd⟩ := (opens_properties hp).1 h
    exact ⟨strings, hf, .inl ⟨none, hd⟩⟩
  | expectString property =>
    obtain ⟨strings, hf, hd⟩ := (opens_expectString hp).1 h
    exact ⟨strings, hf, .inl ⟨some property, hd⟩⟩
  | selectGrammar | awaitGrammar | loaded =>
    obtain ⟨strings, hf, hd⟩ := (opens_complete (by simp [hp])).1 h
    exact ⟨strings, hf, .inr hd⟩
  | body g context => exact absurd h (not_opens_body hp)

theorem Opens.after_read {t : Term} (h : f.Opens read (t :: queued)) (hp : f.phase ≠ .leading) :
    f.Opens (read ++ [t]) queued := by
  have hall : read ++ t :: queued = read ++ [t] ++ queued := (List.append_cons _ _ _)
  unfold Opens at h ⊢
  cases hphase : f.phase with
  | start =>
    simp only [hphase] at h
    cases h.2.2
  | leading => exact absurd hphase hp
  | body g context => simp only [hphase] at h
  | _ => simpa only [hphase, hall] using h

def Continues (read : List Term) (turn : Turn) : Prop :=
  ∃ f', turn.move.top? = some (.document f') ∧ f'.Opens read turn.workspace.queue.toList

theorem Continues.of_reports {f' : DocumentFrame} {ws' : Workspace} {ts : List Term}
    {input' : Cell Phrase} (hr : ws.Reports ws' ts) (hq : ws.Queued)
    (h : f'.Opens read (ws.queue.toList ++ ts)) : Continues read (f'.stay below ws' input') := by
  refine ⟨f', rfl, ?_⟩
  change f'.Opens read ws'.queue.toList
  rwa [(hr hq).2]

theorem reports_reportString (f : DocumentFrame) (ws : Workspace) (p : Phrase)
    (property : DoctypeProperty) :
    ∃ start value stop : Term,
      start.Is ((Term.event .propertyStart .unknown start.start).named
        (some (.property property.name false))) ∧
      value.Is (.wrap .value .primary p) ∧ stop.Is (.event .propertyEnd .unknown stop.start) ∧
      ws.Reports (f.reportString ws p property).2 [start, value, stop] := by
  refine ⟨_, _, _, ?_, ?_, ?_,
    ((reports_report _ _).trans (reports_take _ p _ _)).trans (reports_report _ _)⟩
  · rfl
  · rfl
  · rfl

theorem remembers_reportString (h : f.Remembers strings) (ws : Workspace) (p : Phrase)
    (property : DoctypeProperty) :
    (f.reportString ws p property).1.Remembers (strings ++ [(property, p)]) :=
  remembers_remember h property p p.start _

/-- A document that begins its declaration has read nothing, and what it has passed over comes
behind the start of the statement. -/
theorem declares_declared {p : Phrase} {ws₁ ws₂ : Workspace} (hq : ws.Queued)
    (hfront : ws.queue.Fronted) (hmark : ws.queue.markCount = 1) (position : Position)
    (htrivia : ∀ t ∈ ws.queue.toList, t.IsTrivia) (hw : p.isWord doctypeKeyword = true)
    (hs : ws.reportStatementStart (.event .statementStart .unknown position) = .ok ws₁)
    (hm : ws₁.popMark = .ok ws₂) :
    ∃ ts, Declares none ts [] ∧
      ((ws₂.report ((Term.event .objectStart .unknown p.start).named (some doctypeName))).take p
        .structural .keyword).queue.toList = ts := by
  obtain ⟨front, back, hparts⟩ := exists_parts_of_startStatement hq hs
  obtain ⟨q, rfl, hl⟩ := toList_startStatement hq hfront hparts hs hm
  obtain rfl := hparts.front_eq_nil hfront hmark
  rw [hparts.toList_eq, List.nil_append] at htrivia
  have hq₂ := (wraps_popMark hm (wraps_reportStatementStart rfl hs hq).1).1
  refine ⟨_, ?_, (((reports_report _ _).trans (reports_take _ p _ _)) hq₂).2⟩
  rw [hl]
  exact .word _ _ _ back p rfl htrivia rfl hw rfl

theorem Turns.opens (h : f.Turns below ws input turn) (hq : ws.Queued) (hfront : ws.queue.Fronted)
    (hmark : f.phase = .leading → ws.queue.markCount = 1) (ho : f.Opens read ws.queue.toList)
    (hload : f.phase = .loaded → ws.grammar = none) : Continues read turn := by
  cases h with
  | hungry hp => exact ⟨f, rfl, ho⟩
  | script input hp hs =>
    obtain ⟨hf, rfl, hqueue⟩ := (opens_start hp).1 ho
    apply Continues.of_reports (reports_refl ws) hq
    rw [hqueue]
    exact (opens_complete (.inl rfl)).2 ⟨[], hf, .trivia [] (List.forall_mem_nil _)⟩
  | mark input hp hs =>
    obtain ⟨hf, rfl, hqueue⟩ := (opens_start hp).1 ho
    apply Continues.of_reports (reports_pushMark ws) hq
    rw [hqueue]
    exact (opens_leading rfl).2 ⟨hf, rfl, List.forall_mem_nil _⟩
  | passLeading p hp hk =>
    obtain ⟨hf, rfl, htrivia⟩ := (opens_leading hp).1 ho
    apply Continues.of_reports (reports_skip ws p) hq
    refine (opens_leading hp).2 ⟨hf, rfl, List.forall_mem_append.2 ⟨htrivia, ?_⟩⟩
    exact List.forall_mem_singleton.2 ⟨p, hk, rfl⟩
  | declare p ws₁ ws₂ hp hk hw hs hm =>
    obtain ⟨hf, rfl, htrivia⟩ := (opens_leading hp).1 ho
    obtain ⟨ts, hd, hl⟩ := declares_declared hq hfront (hmark hp) _ htrivia hw hs hm
    refine ⟨f.goto .properties, rfl, (opens_properties rfl).2 ⟨[], hf, ?_⟩⟩
    exact hl ▸ hd
  | select p ws₁ hp hk hw hm =>
    obtain ⟨hf, rfl, htrivia⟩ := (opens_leading hp).1 ho
    apply Continues.of_reports (reports_popMark hm) hq
    rw [List.append_nil]
    exact (opens_complete (.inl rfl)).2 ⟨[], hf, .trivia _ htrivia⟩
  | passProperties p hp hk =>
    obtain ⟨strings, hf, hd⟩ := (opens_properties hp).1 ho
    apply Continues.of_reports (reports_skip ws p) hq
    refine (opens_properties hp).2 ⟨strings, hf, ?_⟩
    rw [← List.append_assoc]
    exact hd.pass _ p hk rfl
  | word p property hp hk hw hs =>
    obtain ⟨strings, hf, hd⟩ := (opens_properties hp).1 ho
    apply Continues.of_reports (reports_take ws p _ _) hq
    refine (opens_expectString rfl).2 ⟨strings, hf, ?_⟩
    rw [← List.append_assoc]
    exact hd.expect property hs _ p hw rfl
  | systemId p hp hk hs =>
    obtain ⟨strings, hf, hd⟩ := (opens_properties hp).1 ho
    obtain ⟨start, value, stop, hstart, hvalue, hstop, hr⟩ := f.reports_reportString ws p .systemId
    apply Continues.of_reports hr hq
    have hphase : (f.reportString ws p .systemId).1.phase = .properties :=
      (f.phase_reportString ws p _).trans hp
    refine (opens_properties hphase).2 ⟨_, remembers_reportString hf ws p .systemId, ?_⟩
    rw [← List.append_assoc]
    exact hd.accept start value stop p .systemId rfl hstart hs hvalue hstop
  | leftover p hp hk hs =>
    obtain ⟨strings, hf, hd⟩ := (opens_properties hp).1 ho
    obtain ⟨error, he, hr⟩ :=
      exists_reports_reportError ws Problem.unexpectedToken [p.text] p.start p.stop
    apply Continues.of_reports (hr.trans (reports_take _ p _ _)) hq
    refine (opens_properties hp).2 ⟨strings, hf, ?_⟩
    rw [← List.append_assoc]
    exact hd.leave error _ p he hs rfl
  | finish p hp hk =>
    obtain ⟨strings, hf, hd⟩ := (opens_properties hp).1 ho
    apply Continues.of_reports ((reports_report ws _).trans (reports_take _ p _ _)) hq
    refine (opens_complete (.inl rfl)).2 ⟨strings, hf, ?_⟩
    rw [← List.append_assoc]
    exact .declaration hd _ _ rfl (.inr ⟨p, hk, rfl⟩)
  | breakOff p hp hk =>
    obtain ⟨strings, hf, hd⟩ := (opens_properties hp).1 ho
    apply Continues.of_reports ((reports_report ws _).trans (reports_report _ _)) hq
    refine (opens_complete (.inl rfl)).2 ⟨strings, hf, ?_⟩
    rw [← List.append_assoc]
    exact .declaration hd _ _ rfl (.inl rfl)
  | passExpect p property hp hk =>
    obtain ⟨strings, hf, hd⟩ := (opens_expectString hp).1 ho
    apply Continues.of_reports (reports_skip ws p) hq
    refine (opens_expectString hp).2 ⟨strings, hf, ?_⟩
    rw [← List.append_assoc]
    exact hd.pass _ p hk rfl
  | string p property hp hk hs =>
    obtain ⟨strings, hf, hd⟩ := (opens_expectString hp).1 ho
    obtain ⟨start, value, stop, hstart, hvalue, hstop, hr⟩ := f.reports_reportString ws p property
    apply Continues.of_reports hr hq
    refine (opens_properties rfl).2 ⟨_, remembers_reportString hf ws p property, ?_⟩
    rw [← List.append_assoc]
    exact hd.accept start value stop p property rfl hstart hs hvalue hstop
  | missing p property hp hk hs =>
    obtain ⟨strings, hf, hd⟩ := (opens_expectString hp).1 ho
    obtain ⟨error, he, hr⟩ := exists_reports_reportError ws Problem.missingDoctypeString
      [property.keyword] p.start p.stop
    apply Continues.of_reports hr hq
    refine (opens_properties rfl).2 ⟨strings, hf, ?_⟩
    rw [← List.append_assoc]
    exact hd.miss error he
  | known input hp hg =>
    exact ⟨_, rfl, (opens_complete (.inr (.inr rfl))).2 ((opens_complete (.inl hp)).1 ho)⟩
  | request input hp hg =>
    exact ⟨_, rfl, (opens_complete (.inr (.inl rfl))).2 ((opens_complete (.inl hp)).1 ho)⟩
  | wait input hp hg => exact ⟨f, rfl, ho⟩
  | arrived input hp hg =>
    exact ⟨_, rfl, (opens_complete (.inr (.inr rfl))).2 ((opens_complete (.inr (.inl hp))).1 ho)⟩
  | absent input hp hg =>
    exact ⟨_, rfl, (opens_complete (.inr (.inl rfl))).2 ((opens_complete (.inr (.inr hp))).1 ho)⟩
  | load input g hp hg => cases (hload hp).symm.trans hg
  | close p g context hp hk => exact absurd ho (not_opens_body hp)
  | stray p g context hp hk => exact absurd ho (not_opens_body hp)

end DocumentFrame

end TermStream
