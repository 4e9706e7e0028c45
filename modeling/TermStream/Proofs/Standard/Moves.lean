import TermStream.Proofs.Pipeline.Placement
import TermStream.Proofs.Standard.Descent

namespace TermStream

open MarkedQueue

namespace Grammar

/-- The standard grammar in either mode, whatever has gone wrong when it was loaded. -/
def IsStandard (g : Grammar) : Prop :=
  ∃ script errors, g = (standard script).withLoadErrors errors

theorem isStandard_standard (script : Bool) : (standard script).IsStandard := ⟨script, .nil, rfl⟩

theorem IsStandard.built {g : Grammar} (h : g.IsStandard) : g.Built := by
  obtain ⟨script, errors, rfl⟩ := h
  exact (built_standard script).withLoadErrors errors

end Grammar

namespace Course

variable {answer : GrammarReference → Grammar} {g : Grammar} {c d e : Course} {m n : Nat}

def Leads (answer : GrammarReference → Grammar) (c d : Course) : Prop :=
  ∃ n, c.after answer n = some d

theorem Leads.refl (answer : GrammarReference → Grammar) (c : Course) : c.Leads answer c :=
  ⟨0, rfl⟩

theorem Leads.trans (h : c.Leads answer d) (h' : d.Leads answer e) : c.Leads answer e := by
  obtain ⟨m, hm⟩ := h
  obtain ⟨n, hn⟩ := h'
  exact ⟨m + n, by rw [after_add, hm, Option.bind_some, hn]⟩

theorem Leads.of_next (h : c.next answer = some d) : c.Leads answer d := ⟨1, h⟩

structure View where
  stack : List Activation
  phrases : List Phrase
  /-- The terms that have been reported, read or not. -/
  terms : List Term

/-- A course with the standard grammar in which this is seen. -/
structure Shows (g : Grammar) (c : Course) (v : View) : Prop where
  sound : c.Sound
  stack_eq : c.interpreter.stack = v.stack
  phrases_eq : c.cell.toList ++ c.phrases = v.phrases
  terms_eq : c.terms ++ c.interpreter.workspace.queue.toList = v.terms
  grammar_eq : c.interpreter.workspace.grammar = some g
  standard : g.IsStandard
  fronted : c.interpreter.workspace.queue.Fronted

variable {v w : View} {a : Activation} {below : List Activation} {turn : Turn} {p : Phrase}
  {ps : List Phrase}

theorem Shows.exists_eof (h : c.Shows g v) (hs : v.stack ≠ []) :
    ∃ p ∈ v.phrases, p.kind = .eof := by
  have hends := h.sound.ending.endsOnce (h.stack_eq ▸ hs)
  rw [h.phrases_eq] at hends
  obtain ⟨p, hp, he⟩ := hends.exists_mem
  exact ⟨p, hp, beq_iff_eq.1 he⟩

theorem Shows.quiet (ha : ∀ r, (answer r).Built) (h : c.Shows g v) :
    ∃ d, c.Leads answer d ∧ d.Shows g v ∧ d.interpreter.workspace.queue.hasOutput = false := by
  generalize hl : c.interpreter.workspace.queue.toList.length = l
  induction l generalizing c with
  | zero =>
    refine ⟨c, .refl answer c, h, ?_⟩
    cases ho : c.interpreter.workspace.queue.hasOutput with
    | false => rfl
    | true =>
      have hne := ((hasOutput_iff h.sound.interpreter.queued.sound).1 ho).2
      exact absurd (List.length_eq_zero_iff.1 hl) hne
  | succ l ih =>
    cases ho : c.interpreter.workspace.queue.hasOutput with
    | false => exact ⟨c, .refl answer c, h, ho⟩
    | true =>
      obtain ⟨term, q, hread, hterms, -⟩ := h.sound.interpreter.exists_read ho
      have hstep : c.interpreter.step c.cell =
          (.ok (some .outputAvailable), c.interpreter, c.cell) := by
        simp [Interpreter.step, ho]
      let d : Course := { c with
        interpreter := { c.interpreter with
          workspace := { c.interpreter.workspace with queue := q } }
        terms := c.terms ++ [term] }
      have hnext : c.next answer = some d := by
        simp only [next, stepped, hstep, serve, hread]
        rfl
      have hd : d.Shows g v := by
        refine ⟨h.sound.next ha hnext, h.stack_eq, h.phrases_eq, ?_, h.grammar_eq,
          h.standard, ?_⟩
        · change c.terms ++ [term] ++ q.toList = v.terms
          rw [← h.terms_eq, hterms, List.append_assoc]
          rfl
        · obtain ⟨q', hq', -, -, hmarks, -⟩ := h.sound.interpreter.read_eq hread
          cases hq'
          intro m hm
          change m ∈ q.marks.getLast? at hm
          rw [hmarks] at hm
          cases hm
      have hlen : d.interpreter.workspace.queue.toList.length = l := by
        change q.toList.length = l
        rw [hterms, List.length_cons] at hl
        exact Nat.succ.inj hl
      obtain ⟨e, hde, he⟩ := ih hd hlen
      exact ⟨e, (Leads.of_next hnext).trans hde, he⟩

/-- A step of the frame on top is a move, if nothing is needed after it. -/
theorem Shows.leads_turn (ha : ∀ r, (answer r).Built) (h : c.Shows g v) (hs : v.stack = a :: below)
    (ho : c.interpreter.workspace.queue.hasOutput = false)
    (ht : Interpreter.stepFrame a below c.interpreter.workspace c.cell = .ok turn)
    (hm : (Interpreter.stackAfter turn.move turn.below).1 = none) :
    let d : Course := { c with interpreter := c.interpreter.after turn, cell := turn.input }
    c.Leads answer d ∧ d.Shows g ⟨(Interpreter.stackAfter turn.move turn.below).2,
      turn.input.toList ++ c.phrases, c.terms ++ turn.workspace.queue.toList⟩ := by
  intro d
  have hstack : c.interpreter.stack = a :: below := h.stack_eq.trans hs
  have hstep : c.interpreter.step c.cell = (.ok none, d.interpreter, d.cell) := by
    simp only [Interpreter.step, ho, hstack, ht, hm]
    rfl
  have hnext : c.next answer = some d := by
    simp only [next, stepped, hstep]
    rfl
  have hturn := Interpreter.stepFrame_turns ht
  exact ⟨.of_next hnext, h.sound.next ha hnext, rfl, rfl, rfl, hturn.grammar_eq.trans h.grammar_eq,
    h.standard, hturn.keepsFront h.sound.interpreter.queued ho h.fronted⟩

theorem Shows.fill {frame frame' : Frame} {r : CallResult} {out : List Term}
    (ha : ∀ r, (answer r).Built) (h : c.Shows g ⟨⟨frame, r⟩ :: below, p :: ps, out⟩)
    (ho : c.interpreter.workspace.queue.hasOutput = false)
    (hn : Interpreter.stepFrame ⟨frame, r⟩ below c.interpreter.workspace none =
      .ok ⟨.needInput frame', below, c.interpreter.workspace, none⟩) :
    ∃ d f r', (f = frame ∨ f = frame') ∧ c.Leads answer d ∧
      d.Shows g ⟨⟨f, r'⟩ :: below, p :: ps, out⟩ ∧
      d.interpreter.workspace = c.interpreter.workspace ∧ d.cell = some p ∧ d.phrases = ps ∧
      d.terms = c.terms := by
  have hrest := h.phrases_eq
  cases hc : c.cell with
  | some q =>
    rw [hc] at hrest
    cases hrest
    exact ⟨c, frame, r, .inl rfl, .refl answer c, h, rfl, hc, rfl, rfl⟩
  | none =>
    rw [hc] at hrest
    have hphrases : c.phrases = p :: ps := hrest
    have hs : c.interpreter.stack = ⟨frame, r⟩ :: below := h.stack_eq
    let d : Course := { c with
      interpreter := { c.interpreter with stack := ⟨frame', .none⟩ :: below }
      cell := some p
      phrases := ps }
    have hstep : c.interpreter.step c.cell = (.ok (some .inputNeeded), d.interpreter, none) := by
      simp only [Interpreter.step, ho, hs, hc, hn]
      rfl
    have hnext : c.next answer = some d := by
      simp only [next, stepped, hstep, serve, hphrases, Cell.put]
      rfl
    exact ⟨d, frame', .none, .inr rfl, .of_next hnext, ⟨h.sound.next ha hnext, rfl, rfl, h.terms_eq,
      h.grammar_eq, h.standard, h.fronted⟩, rfl, rfl, rfl, rfl⟩

/-- From wherever the view `v` is seen, moves lead to where `w` is seen. -/
def Goes (answer : GrammarReference → Grammar) (g : Grammar) (v w : View) : Prop :=
  ∀ c : Course, c.Shows g v → ∃ d, c.Leads answer d ∧ d.Shows g w

theorem Goes.trans {v w x : View} (h : Goes answer g v w) (h' : Goes answer g w x) :
    Goes answer g v x := by
  intro c hc
  obtain ⟨d, hcd, hd⟩ := h c hc
  obtain ⟨e, hde, he⟩ := h' d hd
  exact ⟨e, hcd.trans hde, he⟩

end Course

/-- What a frame may rely on when it is on top of a stack. -/
structure Workspace.Serves (g : Grammar) (ws : Workspace) (stack : List Activation) : Prop where
  queued : ws.Queued
  grammar_eq : ws.grammar = some g
  standard : g.IsStandard
  resources_eq : ws.resources = held stack
  contexts_eq : ws.keywords.contexts = []

namespace Workspace.Serves

open Descent

variable {g : Grammar} {ws : Workspace} {stack : List Activation} {p : Phrase}

theorem stamp_eq (h : ws.Serves g stack) {t : Term} (ht : t.grammar = none) :
    ws.stamp t = stamped t := by
  obtain ⟨script, errors, hg⟩ := h.standard
  rw [stamp, stamped, ht, h.grammar_eq, hg]
  rfl

theorem toList_report (h : ws.Serves g stack) {t : Term} (ht : t.grammar = none) :
    (ws.report t).queue.toList = ws.queue.toList ++ [stamped t] := by
  rw [← h.stamp_eq ht]
  exact h.queued.sound.toList_append _

theorem toList_take (h : ws.Serves g stack) (p : Phrase) (kind : TermKind) (role : Role) :
    (ws.take p kind role).queue.toList = ws.queue.toList ++ [Descent.wrapped kind role p] :=
  h.toList_report rfl

theorem toList_skip (h : ws.Serves g stack) (p : Phrase) :
    (ws.skip p).queue.toList = ws.queue.toList ++ [passed p] :=
  h.toList_report rfl

theorem softEndEnabled (h : ws.Serves g stack) (hs : (held stack).softEnds = 0) :
    ws.softEndEnabled = true :=
  beq_iff_eq.2 ((congrArg Resources.softEnds h.resources_eq).trans hs)

end Workspace.Serves

namespace Course

variable {answer : GrammarReference → Grammar} {g : Grammar} {c : Course} {frame : Frame}
  {r : CallResult}
  {below : List Activation} {p : Phrase} {ps : List Phrase} {out : List Term}

theorem Shows.serves {v : View} (h : c.Shows g v) : c.interpreter.workspace.Serves g v.stack := by
  have hsound := h.sound.interpreter
  have hresources := hsound.resources
  have hfits := hsound.fits
  rw [h.stack_eq] at hresources hfits
  rw [h.grammar_eq] at hfits
  refine ⟨hsound.queued, h.grammar_eq, h.standard, hresources, ?_⟩
  have hcontexts : c.interpreter.workspace.keywords.contexts = (held v.stack).contexts :=
    congrArg Resources.contexts hresources
  rw [hcontexts]
  -- the standard grammar has no sets of keywords
  obtain ⟨script, errors, rfl⟩ := h.standard
  apply List.eq_nil_iff_forall_not_mem.2
  exact fun k hk => Nat.not_lt_zero k (held_contexts_lt hfits k hk)

theorem goes_of_standard {v w : View} (h : g.IsStandard → Goes answer g v w) :
    Goes answer g v w :=
  fun c hc => h hc.standard c hc

theorem goes_silent (ha : ∀ r, (answer r).Built) (move : Move)
    (hs : ∀ (ws : Workspace) input, ws.Serves g (⟨frame, r⟩ :: below) →
      ∃ ws', Interpreter.stepFrame ⟨frame, r⟩ below ws input = .ok ⟨move, below, ws', input⟩ ∧
        ws'.queue = ws.queue)
    (hm : (Interpreter.stackAfter move below).1 = none) :
    Goes answer g ⟨⟨frame, r⟩ :: below, ps, out⟩
      ⟨(Interpreter.stackAfter move below).2, ps, out⟩ := by
  intro c hc
  obtain ⟨d, hcd, hd, ho⟩ := hc.quiet ha
  obtain ⟨ws', ht, hq⟩ := hs d.interpreter.workspace d.cell hd.serves
  obtain ⟨hde, he⟩ := hd.leads_turn ha rfl ho ht hm
  refine ⟨_, hcd.trans hde, ?_⟩
  have hphrases : d.cell.toList ++ d.phrases = ps := hd.phrases_eq
  have hterms : d.terms ++ ws'.queue.toList = out := by
    rw [hq]
    exact hd.terms_eq
  rw [← hphrases, ← hterms]
  exact he

/-- A step that looks at the current phrase. A frame that has asked for it may be another one. -/
theorem goes_asking (ha : ∀ r, (answer r).Built) (frame' : Frame) (move : Move)
    (input : Cell Phrase) (new : List Term)
    (hn : ∀ (ws : Workspace), ws.Serves g (⟨frame, r⟩ :: below) →
      Interpreter.stepFrame ⟨frame, r⟩ below ws none =
        .ok ⟨.needInput frame', below, ws, none⟩)
    (hs : ∀ f (ws : Workspace) r, f = frame ∨ f = frame' → ws.Serves g (⟨f, r⟩ :: below) →
      ∃ ws', Interpreter.stepFrame ⟨f, r⟩ below ws (some p) = .ok ⟨move, below, ws', input⟩ ∧
        ws'.queue.toList = ws.queue.toList ++ new)
    (hm : (Interpreter.stackAfter move below).1 = none) :
    Goes answer g ⟨⟨frame, r⟩ :: below, p :: ps, out⟩
      ⟨(Interpreter.stackAfter move below).2, input.toList ++ ps, out ++ new⟩ := by
  intro c hc
  obtain ⟨d, hcd, hd, ho⟩ := hc.quiet ha
  obtain ⟨e, f, r', hf, hde, he, hws, hcell, hphrases, hterms⟩ :=
    hd.fill ha ho (hn _ hd.serves)
  obtain ⟨ws', ht, hq⟩ := hs f e.interpreter.workspace r' hf he.serves
  rw [← hws] at ho
  rw [← hcell] at ht
  obtain ⟨heg, hg⟩ := he.leads_turn ha rfl ho ht hm
  refine ⟨_, (hcd.trans hde).trans heg, ?_⟩
  have hout : e.terms ++ e.interpreter.workspace.queue.toList = out := he.terms_eq
  rw [← hphrases, ← hout, List.append_assoc, ← hq]
  exact hg

theorem goes_reading (ha : ∀ r, (answer r).Built) (move : Move) (input : Cell Phrase)
    (new : List Term)
    (hn : ∀ ws, Interpreter.stepFrame ⟨frame, r⟩ below ws none =
      .ok ⟨.needInput frame, below, ws, none⟩)
    (hs : ∀ (ws : Workspace) r, ws.Serves g (⟨frame, r⟩ :: below) →
      ∃ ws', Interpreter.stepFrame ⟨frame, r⟩ below ws (some p) = .ok ⟨move, below, ws', input⟩ ∧
        ws'.queue.toList = ws.queue.toList ++ new)
    (hm : (Interpreter.stackAfter move below).1 = none) :
    Goes answer g ⟨⟨frame, r⟩ :: below, p :: ps, out⟩
      ⟨(Interpreter.stackAfter move below).2, input.toList ++ ps, out ++ new⟩ := by
  apply goes_asking ha frame move input new (fun ws _ => hn ws) _ hm
  rintro f ws r (rfl | rfl) hw
  · exact hs ws r hw
  · exact hs ws r hw

/-- A step that looks at the current phrase and leaves it to others. -/
theorem goes_keeping (ha : ∀ r, (answer r).Built) (move : Move)
    (hn : ∀ ws, Interpreter.stepFrame ⟨frame, r⟩ below ws none =
      .ok ⟨.needInput frame, below, ws, none⟩)
    (hs : ∀ (ws : Workspace) r, ws.Serves g (⟨frame, r⟩ :: below) →
      ∃ ws', Interpreter.stepFrame ⟨frame, r⟩ below ws (some p) = .ok ⟨move, below, ws', some p⟩ ∧
        ws'.queue = ws.queue)
    (hm : (Interpreter.stackAfter move below).1 = none) :
    Goes answer g ⟨⟨frame, r⟩ :: below, p :: ps, out⟩
      ⟨(Interpreter.stackAfter move below).2, p :: ps, out⟩ := by
  have h : Goes answer g ⟨⟨frame, r⟩ :: below, p :: ps, out⟩
      ⟨(Interpreter.stackAfter move below).2, p :: ps, out ++ []⟩ := by
    refine goes_reading ha move (some p) [] hn (fun ws r hw => ?_) hm
    obtain ⟨ws', ht, hq⟩ := hs ws r hw
    exact ⟨ws', ht, by rw [hq, List.append_nil]⟩
  rwa [List.append_nil] at h

end Course

end TermStream
