import TermStream.Proofs.Pipeline.Nesting
import TermStream.Proofs.Standard.Simulation

namespace TermStream

open MarkedQueue

theorem Grammar.IsStandard.plain {g : Grammar} (h : g.IsStandard) : g.Plain := by
  obtain ⟨script, errors, rfl⟩ := h
  exact (plain_standard script).withLoadErrors errors

/-- How far a phase is from the start of the statements. -/
def DocumentPhase.rank : DocumentPhase → Nat
  | .start => 6
  | .leading => 5
  | .expectString _ => 4
  | .properties => 3
  | .selectGrammar => 2
  | .awaitGrammar => 1
  | .loaded | .body _ _ => 0

def DocumentPhase.IsEarly : DocumentPhase → Prop
  | .body _ _ => False
  | _ => True

namespace DocumentFrame

def Declaring (f : DocumentFrame) : Prop := f.phase.IsEarly

/-- The outcomes of a step of a document before its statements: a phrase is taken or the statements
are nearer than they were, or something is needed, or they start. -/
inductive Declares (f : DocumentFrame) (below : List Activation) (ws : Workspace)
    (input : Cell Phrase) : Turn → Prop where
  | nears (f' : DocumentFrame) (ws' : Workspace) (input' : Cell Phrase) (hf : f'.Declaring)
      (hlt : 7 * input'.toList.length + f'.phase.rank < 7 * input.toList.length + f.phase.rank) :
      Declares f below ws input (f'.stay below ws' input')
  | asks (hi : input = none) :
      Declares f below ws input ⟨.needInput (.document f), below, ws, none⟩
  | requests (f' : DocumentFrame) (ws' : Workspace) (hf : f'.Declaring) (hg : ws.grammar = none)
      (hle : f'.phase.rank ≤ f.phase.rank + 1) :
      Declares f below ws input ⟨.needResource (.document f'), below, ws', input⟩
  | starts (g : Grammar) (ws' : Workspace) (hg : ws.grammar = some g) :
      Declares f below ws input
        ⟨.call (Standard.document g f) (Standard.sequence g), below, ws', input⟩

variable {f : DocumentFrame} {below : List Activation} {ws : Workspace} {input : Cell Phrase}
  {turn : Turn} {p : Phrase}

theorem Declares.take {f' : DocumentFrame} {ws' : Workspace} (hf : f'.Declaring)
    (hle : f'.phase.rank ≤ f.phase.rank + 6) :
    Declares f below ws (some p) (f'.stay below ws' none) := by
  apply Declares.nears f' ws' none hf
  change 0 + _ < 7 * 1 + _
  omega

theorem Declares.goto {phase : DocumentPhase} {ws' : Workspace} (hf : phase.IsEarly)
    (hlt : phase.rank < f.phase.rank) :
    Declares f below ws input ((f.goto phase).stay below ws' input) := by
  apply Declares.nears (f.goto phase) ws' input hf
  exact Nat.add_lt_add_left hlt _

theorem chooseContext_standard {g : Grammar} (hg : g.IsStandard) (f : DocumentFrame)
    (ws : Workspace) : (f.chooseContext ws g).1 = 0 := by
  have hlt := f.chooseContext_lt ws hg.built
  obtain ⟨script, errors, rfl⟩ := hg
  exact Nat.lt_one_iff.1 hlt

theorem Turns.declares (h : f.Turns below ws input turn) (hf : f.Declaring)
    (hg : ∀ g, ws.grammar = some g → g.IsStandard) : Declares f below ws input turn := by
  have hstring : ∀ (p : Phrase) (property : DoctypeProperty),
      (f.reportString ws p property).1.phase = f.phase := fun p property => by
    cases property <;> rfl
  cases h with
  | hungry hp => exact .asks rfl
  | script input hp hs => exact .goto trivial (by simp [hp, DocumentPhase.rank])
  | mark input hp hs => exact .goto trivial (by simp [hp, DocumentPhase.rank])
  | passLeading p hp hk => exact .take hf (Nat.le_add_right _ _)
  | declare p ws₁ ws₂ hp hk hw hs hm => exact .take trivial (by simp [hp, goto, DocumentPhase.rank])
  | select p ws₁ hp hk hw hm => exact .goto trivial (by simp [hp, DocumentPhase.rank])
  | passProperties p hp hk => exact .take hf (Nat.le_add_right _ _)
  | word p property hp hk hw hs => exact .take trivial (by simp [hp, goto, DocumentPhase.rank])
  | systemId p hp hk hs =>
    apply Declares.take
    · rw [Declaring, hstring]
      exact hf
    · rw [hstring]
      exact Nat.le_add_right _ _
  | leftover p hp hk hs => exact .take hf (Nat.le_add_right _ _)
  | finish p hp hk => exact .take trivial (by simp [hp, goto, DocumentPhase.rank])
  | breakOff p hp hk => exact .goto trivial (by simp [hp, DocumentPhase.rank])
  | passExpect p property hp hk => exact .take hf (Nat.le_add_right _ _)
  | string p property hp hk hs => exact .take trivial (by simp [hp, goto, DocumentPhase.rank])
  | missing p property hp hk hs => exact .goto trivial (by simp [hp, DocumentPhase.rank])
  | known input hp hg' => exact .goto trivial (by simp [hp, DocumentPhase.rank])
  | request input hp hg' => exact .requests _ _ trivial hg' (by simp [hp, goto, DocumentPhase.rank])
  | wait input hp hg' => exact .requests _ _ hf hg' (Nat.le_succ _)
  | arrived input hp hg' => exact .goto trivial (by simp [hp, DocumentPhase.rank])
  | absent input hp hg' => exact .requests _ _ trivial hg' (by simp [hp, goto, DocumentPhase.rank])
  | load input g hp hg' =>
    rw [chooseContext_standard (hg g hg')]
    exact .starts g _ hg'
  | close p g context hp hk =>
    rw [Declaring, hp] at hf
    exact hf.elim
  | stray p g context hp hk =>
    rw [Declaring, hp] at hf
    exact hf.elim

end DocumentFrame

namespace Course

variable {answer : GrammarReference → Grammar} {c d : Course} {f : DocumentFrame}

structure Declares (c : Course) (f : DocumentFrame) : Prop where
  sound : c.Sound
  stack_eq : ∃ r, c.interpreter.stack = [⟨.document f, r⟩]
  declaring : f.Declaring
  standard : ∀ g, c.interpreter.workspace.grammar = some g → g.IsStandard
  fronted : c.interpreter.workspace.queue.Fronted

/-- How far a course is from the start of the statements. A phrase that is put into the cell is
nearer than one that is not, and a grammar that is given brings the start two phases nearer. -/
def distance (c : Course) (f : DocumentFrame) : Nat :=
  8 * c.phrases.length + 7 * c.cell.toList.length + f.phase.rank +
    if c.interpreter.workspace.grammar.isSome then 0 else 2

/-- The distance of a course, and the terms that are to be read before it gets smaller. -/
def remaining (c : Course) (f : DocumentFrame) : Nat × Nat :=
  (c.distance f, c.interpreter.workspace.queue.toList.length)

/-- A move brings the start of the statements nearer. -/
theorem Declares.next (ha : ∀ r, (answer r).IsStandard) (h : c.Declares f)
    (hd : c.next answer = some d) :
    (∃ g v, d.Shows g v ∧ v.stack = [⟨Standard.sequence g, .none⟩, ⟨Standard.document g f, .none⟩]) ∨
      ∃ f', d.Declares f' ∧ Prod.Lex (· < ·) (· < ·) (d.remaining f') (c.remaining f) := by
  have hsound := h.sound.next (fun r => (ha r).built) hd
  obtain ⟨r, hstack⟩ := h.stack_eq
  cases next_moves hd with
  | read term t hr =>
    obtain ⟨q, rfl, hl, -, hm, -⟩ := h.sound.interpreter.read_eq hr
    refine .inr ⟨f, ⟨hsound, h.stack_eq, h.declaring, h.standard, ?_⟩, ?_⟩
    · intro m hmem
      change m ∈ q.marks.getLast? at hmem
      rw [hm] at hmem
      cases hmem
    · apply Prod.Lex.right
      change q.toList.length < c.interpreter.workspace.queue.toList.length
      rw [hl]
      exact Nat.lt_succ_self _
  | work a below turn ho hs ht hm =>
    obtain ⟨rfl, rfl⟩ : a = ⟨.document f, r⟩ ∧ below = [] := by
      simpa using hs.symm.trans hstack
    have hfront := ht.keepsFront h.sound.interpreter.queued ho h.fronted
    have hgrammar := ht.grammar_eq
    generalize hcell : c.cell = input at ht
    cases ht with
    | document f ht =>
      cases ht.declares h.declaring h.standard with
      | nears f' ws' input' hf hlt =>
        refine .inr ⟨f', ⟨hsound, ⟨_, rfl⟩, hf, ?_, hfront⟩, ?_⟩
        · intro g hg
          exact h.standard g (hgrammar ▸ hg)
        · apply Prod.Lex.left
          have hsame : ws'.grammar = c.interpreter.workspace.grammar := hgrammar
          change 8 * c.phrases.length + 7 * input'.toList.length + f'.phase.rank +
            (if ws'.grammar.isSome then 0 else 2) < c.distance f
          rw [hsame, distance, hcell]
          omega
      | asks hi => cases hm
      | requests f' ws' hf hg hle => cases hm
      | starts g ws' hg =>
        exact .inl ⟨g, ⟨_, _, _⟩, ⟨hsound, rfl, rfl, rfl, hgrammar.trans hg, h.standard g hg, hfront⟩,
          rfl⟩
  | give a below turn f' p ps ho hs ht hm hp =>
    obtain ⟨rfl, rfl⟩ : a = ⟨.document f, r⟩ ∧ below = [] := by
      simpa using hs.symm.trans hstack
    generalize hcell : c.cell = input at ht
    cases ht with
    | document f ht =>
      cases ht.declares h.declaring h.standard with
      | nears f' ws' input' hf hlt => cases hm
      | requests f' ws' hf hg hle => cases hm
      | starts g ws' hg => cases hm
      | asks hi =>
        refine .inr ⟨f, ⟨hsound, ⟨_, rfl⟩, h.declaring, h.standard, h.fronted⟩, ?_⟩
        apply Prod.Lex.left
        change 8 * ps.length + 7 * 1 + f.phase.rank +
          (if c.interpreter.workspace.grammar.isSome then 0 else 2) < c.distance f
        rw [distance, hcell, hi, hp, List.length_cons]
        simp only [Option.toList_none, List.length_nil]
        omega
  | provide a below turn f' r' ho hs ht hm =>
    obtain ⟨rfl, rfl⟩ : a = ⟨.document f, r⟩ ∧ below = [] := by
      simpa using hs.symm.trans hstack
    have hfront := ht.keepsFront h.sound.interpreter.queued ho h.fronted
    generalize hcell : c.cell = input at ht
    cases ht with
    | document f ht =>
      cases ht.declares h.declaring h.standard with
      | nears f' ws' input' hf hlt => cases hm
      | asks hi => cases hm
      | starts g ws' hg => cases hm
      | requests f' ws' hf hg hle =>
        refine .inr ⟨f', ⟨hsound, ⟨_, rfl⟩, hf, ?_, hfront⟩, ?_⟩
        · intro g hg'
          cases hg'
          exact ha r'
        · apply Prod.Lex.left
          change 8 * c.phrases.length + 7 * input.toList.length + f'.phase.rank + 0 < c.distance f
          rw [distance, hcell, hg]
          simp only [Option.isSome_none, Bool.false_eq_true, if_false]
          omega

/-- The statements of a document start after finitely many moves. -/
theorem Declares.leads (ha : ∀ r, (answer r).IsStandard) (h : c.Declares f) :
    ∃ d g f v, c.Leads answer d ∧ d.Shows g v ∧
      v.stack = [⟨Standard.sequence g, .none⟩, ⟨Standard.document g f, .none⟩] := by
  generalize hm : c.remaining f = m
  induction m using (Prod.lex Nat.lt_wfRel Nat.lt_wfRel).wf.induction generalizing c f with
  | _ m ih =>
    subst hm
    obtain ⟨r, hstack⟩ := h.stack_eq
    obtain ⟨d, hd⟩ := h.sound.exists_next answer (by rw [hstack]; exact List.cons_ne_nil _ _)
    rcases h.next ha hd with ⟨g, v, hshows, hv⟩ | ⟨f', hdecl, hlt⟩
    · exact ⟨d, g, f, v, .of_next hd, hshows, hv⟩
    · obtain ⟨e, g, f, v, hde, he⟩ := ih _ hlt hdecl rfl
      exact ⟨e, g, f, v, (Leads.of_next hd).trans hde, he⟩

theorem Declares.start {source : String} {grammar : Option Grammar} {t : Interpreter}
    {ps : List Phrase} (hg : ∀ g, grammar = some g → g.IsStandard)
    (ht : Pipeline.openInterpreter source grammar = .ok t)
    (hs : Course.Sound ⟨t, none, ps, []⟩) : Declares ⟨t, none, ps, []⟩ .new := by
  cases grammar with
  | none =>
    cases ht
    exact ⟨hs, ⟨.none, rfl⟩, trivial, nofun, empty_fronted⟩
  | some g =>
    cases ht
    exact ⟨hs, ⟨.none, rfl⟩, trivial, hg, empty_fronted⟩

theorem Declares.leads_end (ha : ∀ r, (answer r).IsStandard) (h : c.Declares f) :
    ∃ d g out, c.Leads answer d ∧ d.Shows g ⟨[], [], out⟩ := by
  obtain ⟨d, g, f', ⟨stack, ps, out⟩, hcd, hd, rfl⟩ := h.leads ha
  obtain ⟨e, hde, he⟩ := document_goes (fun r => (ha r).built) ps out d hd
  exact ⟨e, g, _, hcd.trans hde, he⟩

theorem Rests.empty (h : c.Rests .eof) (hs : c.Sound) :
    c.interpreter.stack = [] ∧ c.interpreter.workspace.queue.markCount = 0 ∧ c.cell = none ∧
      c.phrases = [] := by
  obtain ⟨hstack, -⟩ := Interpreter.step_eof h
  have hresources := hs.interpreter.resources
  rw [hstack] at hresources
  obtain ⟨hcell, hphrases⟩ := List.append_eq_nil_iff.1 (hs.ending.eq_nil hstack)
  refine ⟨hstack, congrArg Resources.marks hresources, ?_, hphrases⟩
  cases hc : c.cell with
  | none => rfl
  | some p => simp [hc] at hcell

end Course

namespace Pipeline

/-- With the standard grammar, forced in either mode or given when the document asks for it, the
work ends whatever phrases come before the end of the input. All phrases are taken, nothing is on
the stack, no mark is left, and the last term, and no other, is the end of the input. -/
theorem standard_ends (source : String) (grammar : Option Grammar)
    (answer : GrammarReference → Grammar) (ps : List Phrase) (last : Phrase)
    (hg : ∀ g, grammar = some g → g.IsStandard) (ha : ∀ r, (answer r).IsStandard)
    (hp : ∀ p ∈ ps, p.kind ≠ .eof) (hl : last.kind = .eof) :
    ∃ t, openInterpreter source grammar = .ok t ∧ ∃ n, ∀ fuel ≥ n,
      let pass := Course.translate answer fuel fuel ⟨t, none, ps ++ [last], []⟩
      pass.1 = .ok .eof ∧
        (pass.2.interpreter.stack = [] ∧ pass.2.interpreter.workspace.queue.markCount = 0 ∧
          pass.2.cell = none ∧ pass.2.phrases = []) ∧
        pass.2.interpreter.workspace.queue.toList = [] ∧
        ∃ init eof, pass.2.terms = init ++ [eof] ∧ eof.kind = .eof ∧ ∀ t ∈ init, t.kind ≠ .eof := by
  have hbuilt : ∀ r, (answer r).Built := fun r => (ha r).built
  have hends : EndsOnce Phrase.isEof (ps ++ [last]) :=
    .concat (fun p hmem => beq_eq_false_iff_ne.2 (hp p hmem)) (beq_iff_eq.2 hl)
  obtain ⟨t, ht, hsound⟩ := exists_openCourse source (fun g h => (hg g h).built) hends
  obtain ⟨d, g, out, hleads, hd⟩ := (Course.Declares.start hg ht hsound).leads_end ha
  obtain ⟨n, hn⟩ := (Course.translate_ends hbuilt hsound hleads hd).1
  refine ⟨t, ht, n, fun fuel hfuel => ?_⟩
  have hworks := (Course.translate_works hsound hbuilt (.refl answer _) (Nat.le_refl fuel)).1
  have heof := hn fuel hfuel
  generalize Course.translate answer fuel fuel ⟨t, none, ps ++ [last], []⟩ = pass at hworks heof ⊢
  obtain ⟨result, c⟩ := pass
  obtain rfl : result = .ok .eof := heof
  cases hworks with
  | ended m hle hr hc hrests =>
    have hnested : c.Nested :=
      (Course.kept_nested fun r => (ha r).plain).reaches hsound hbuilt
        (.start (fun g h => (hg g h).plain) ht hsound) hr
    have hempty := hrests.empty hc
    have hqueue := hrests.queue_eq_nil hc
    obtain ⟨init, eof, hterms, heof, hinit, -⟩ := hnested.complete hempty.1
    rw [hqueue, List.append_nil] at hterms
    exact ⟨rfl, hempty, hqueue, init, eof, hterms, heof, hinit⟩

theorem answer_isStandard {source : String} {resolver : Resolver}
    (h : ∀ r g, resolver r = some g → g.IsStandard) (r : GrammarReference) :
    (answer source resolver r).IsStandard :=
  answer_of (P := Grammar.IsStandard) (fun _ => ⟨false, _, rfl⟩) h r

/-- A word that starts a declaration, and then ends of a block and of statements that were never
started. The document asks for its grammar, and there is none of the name. -/
theorem standard_ends_stray :
    let word : Token := ⟨.simple .identifier, "doctype", .start, ⟨1, 8, 7⟩, .nil⟩
    let ps : List Phrase := [.ofToken .significant word, .boundary .endBlock ⟨1, 8, 7⟩,
      .boundary .statementEnd ⟨1, 8, 7⟩, .boundary .control ⟨1, 8, 7⟩,
      .boundary .startBlock ⟨1, 8, 7⟩]
    let last : Phrase := .ofToken .eof (.eof ⟨1, 8, 7⟩)
    (∀ r, (answer "in" (fun _ => none) r).IsStandard) ∧ (∀ p ∈ ps, p.kind ≠ .eof) ∧
      ∃ t, openInterpreter "in" none = .ok t ∧ ∃ n, ∀ fuel ≥ n,
        let pass := Course.translate (answer "in" fun _ => none) fuel fuel
          ⟨t, none, ps ++ [last], []⟩
        pass.1 = .ok .eof ∧ pass.2.interpreter.stack = [] ∧
          ∃ init eof, pass.2.terms = init ++ [eof] ∧ eof.kind = .eof := by
  intro word ps last
  have ha : ∀ r, (answer "in" (fun _ => none) r).IsStandard :=
    answer_isStandard fun r g h => by cases h
  have hp : ∀ p ∈ ps, p.kind ≠ .eof := by decide
  obtain ⟨t, ht, n, hn⟩ := standard_ends "in" none _ ps last nofun ha hp rfl
  refine ⟨ha, hp, t, ht, n, fun fuel hfuel => ?_⟩
  obtain ⟨heof, hempty, -, init, eof, hterms, hlast, -⟩ := hn fuel hfuel
  exact ⟨heof, hempty.1, init, eof, hterms, hlast⟩

end Pipeline

end TermStream
