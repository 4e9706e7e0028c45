import TermStream.Proofs.Interpreter.NestedTurns
import TermStream.Proofs.Pipeline.Placement

namespace TermStream

open MarkedQueue

/-- All that is opened is closed, and then the end of the input comes. -/
def Complete (terms : List Term) : Prop :=
  ∃ init last, terms = init ++ [last] ∧ last.kind = .eof ∧ (∀ t ∈ init, t.kind ≠ .eof) ∧
    nest init = some [] ∧ nest terms = some []

theorem Workspace.Nested.complete {ws : Workspace} {read : List Term} {p : Phrase}
    (h : ws.Nested read []) (hk : p.kind = .eof) :
    Complete (read ++ (ws.take p .eof .unknown).queue.toList) := by
  have hqueue : (ws.take p .eof .unknown).queue.toList =
      ws.queue.toList ++ [(ws.consume p).stamp (.wrap .eof .unknown p)] :=
    h.queued.sound.toList_append _
  rw [hqueue, ← List.append_assoc]
  refine ⟨_, _, rfl, rfl, h.ne_eof, h.nest_eq, ?_⟩
  rw [nest_concat, h.nest_eq]
  apply Term.nest_single rfl
  simp [Term.isPart, Workspace.stamp, Term.wrap, hk]

namespace Course

variable {answer : GrammarReference → Grammar} {c d : Course} {progress : Progress}

/-- The terms are nested, and the frames expect the ends that are still to come. -/
structure Nested (c : Course) : Prop where
  nested : c.interpreter.stack ≠ [] →
    c.interpreter.workspace.Nested c.terms (expectedBy c.interpreter.stack)
  complete : c.interpreter.stack = [] → Complete (c.terms ++ c.interpreter.workspace.queue.toList)
  leads : ∀ a ∈ c.interpreter.stack.head?, a.frame.Leading → c.interpreter.workspace.Leads
  closes : ∀ a ∈ c.interpreter.stack.head?, a.frame.Closes c.cell
  plain : ∀ g, c.interpreter.workspace.grammar = some g → g.Plain
  fronted : c.interpreter.workspace.queue.Fronted

theorem Nested.stepped (h : c.Nested) (hs : c.Sound) : c.stepped.Nested := by
  have hadv := hs.advances
  generalize c.stepped = d at hadv ⊢
  cases hadv with
  | output ho => exact h
  | finish ho hs => exact ⟨h.nested, h.complete, h.leads, h.closes, h.plain, h.fronted⟩
  | move a below turn ho hstack ht =>
    have hshaped := hs.interpreter.shaped
    have hfits := hs.interpreter.fits
    have hnested := h.nested
    have hleads := h.leads
    have hcloses := h.closes
    rw [hstack] at hshaped hfits hnested hleads hcloses
    have hw := hnested (List.cons_ne_nil _ _)
    have hl := hleads a rfl
    have hc := hcloses a rfl
    refine ⟨fun hne => ?_, fun hnil => ?_, ht.leads hshaped hs.interpreter.queued hl,
      ht.closes hshaped hc, fun g hg => h.plain g (ht.grammar_eq ▸ hg),
      ht.keepsFront hs.interpreter.queued ho h.fronted⟩
    · have hbelow : expectedBy turn.below = expectedBy below := by
        rcases ht.below_eq with hb | ⟨ws, p, hv⟩
        · rw [hb]
        · exact hv.expectedBy_eq
      change turn.workspace.Nested c.terms
        (expectedBy (Interpreter.stackAfter turn.move turn.below).2)
      rw [expectedBy_stackAfter, hbelow]
      apply ht.nested hshaped h.fronted hl hc (hfits a List.mem_cons_self) h.plain _ hw
      rw [← ht.takesEof_iff, ← ht.stack_eq_nil_iff hshaped]
      exact hne
    · obtain ⟨hsort, r, hr⟩ := ht.takesEof_iff.1 ((ht.stack_eq_nil_iff hshaped).1 hnil)
      obtain rfl := hshaped.below_eq_nil hsort
      obtain ⟨frame, result⟩ := a
      generalize c.cell = input at ht
      cases ht with
      | document f ht =>
        cases ht with
        | close p g context hp hk =>
          simp only [expectedBy, Frame.expects, hp] at hw
          exact hw.complete hk
        | _ => cases hr
      | _ => cases hsort

theorem Nested.serve (h : c.Nested) (hs : c.Sound) (ha : ∀ r, (answer r).Plain)
    (hd : c.serve answer progress = some d) : d.Nested := by
  cases serve_serves hd with
  | read term t hr =>
    obtain ⟨q, rfl, hl, hmarks, hm, hsound⟩ := hs.interpreter.read_eq hr
    have hall : c.terms ++ c.interpreter.workspace.queue.toList =
        c.terms ++ [term] ++ q.toList := by rw [hl, List.append_assoc]; rfl
    refine ⟨fun hne => ⟨hsound.queued, ?_, ?_⟩, fun hnil => ?_, fun a hmem hlead => ?_, h.closes,
      h.plain, ?_⟩
    · exact hall ▸ (h.nested hne).nest_eq
    · exact hall ▸ (h.nested hne).ne_eof
    · exact hall ▸ h.complete hnil
    · exact absurd hmarks (h.leads a hmem hlead).marks_ne_nil
    · intro m hmem
      change m ∈ q.marks.getLast? at hmem
      rw [hm] at hmem
      cases hmem
  | give p ps hp hc =>
    refine ⟨h.nested, h.complete, h.leads, fun a hmem => ?_, h.plain, h.fronted⟩
    have hclose := h.closes a hmem
    rw [hc] at hclose
    exact hclose.of_none _
  | provide r t hp =>
    obtain ⟨-, rfl⟩ := Interpreter.provideGrammar_ok hp
    exact ⟨fun hne => (h.nested hne).of_queue_eq rfl, h.complete, h.leads, h.closes,
      fun g hg => Option.some.inj hg ▸ ha r, h.fronted⟩

theorem Nested.start {source : String} {grammar : Option Grammar} {t : Interpreter}
    {ps : List Phrase} (hg : ∀ g, grammar = some g → g.Plain)
    (ht : Pipeline.openInterpreter source grammar = .ok t)
    (hs : Course.Sound ⟨t, none, ps, []⟩) : Course.Nested ⟨t, none, ps, []⟩ := by
  have hqueued := hs.interpreter.queued
  have hnone : ∀ t ∈ ([] : List Term), t.kind ≠ .eof := fun _ ht => absurd ht List.not_mem_nil
  cases grammar with
  | none =>
    cases ht
    refine ⟨fun _ => ⟨hqueued, rfl, hnone⟩, nofun, ?_, ?_, nofun, empty_fronted⟩
    · rintro a ⟨⟩ ⟨⟩
    · rintro a ⟨⟩ ⟨g, context, ⟨⟩⟩
  | some g =>
    cases ht
    refine ⟨fun _ => ⟨hqueued, rfl, hnone⟩, nofun, ?_, ?_, hg, empty_fronted⟩
    · rintro a ⟨⟩ ⟨⟩
    · rintro a ⟨⟩ ⟨g, context, ⟨⟩⟩

theorem kept_nested (ha : ∀ r, (answer r).Plain) : Kept answer Nested :=
  ⟨fun hs h => h.stepped hs, fun hs h => h.serve hs ha⟩

end Course

namespace Pipeline

open Course

theorem answer_plain {source : String} {resolver : Resolver}
    (h : ∀ r g, resolver r = some g → g.Plain) (r : GrammarReference) :
    (answer source resolver r).Plain :=
  answer_of (P := Grammar.Plain) (fun _ => (Grammar.plain_standard false).withLoadErrors _) h r

theorem standard_plain (r : GrammarReference) (g : Grammar) (h : Resolver.standard r = some g) :
    g.Plain :=
  standard_eq h ▸ Grammar.plain_standard false

/-- With grammars that leave starts and ends to the frames, a run that ends reads nested terms.
Every start is closed by its end, the innermost first, each part of a statement is inside a
statement, and the end of the input comes once, behind everything else. -/
theorem run_nested (fuel : Nat) (source text : String) (settings : Settings)
    (grammar : Option Grammar) (resolver : Resolver) (transcript : Transcript)
    (hg : ∀ g, grammar = some g → g.Built ∧ g.Plain)
    (hb : ∀ r g, resolver r = some g → g.Built ∧ g.Plain)
    (hr : run fuel source text settings grammar resolver = .ok transcript) :
    ∃ init last, transcript.terms.toList = init ++ [last] ∧ last.kind = .eof ∧
      (∀ t ∈ init, t.kind ≠ .eof) ∧ nest init = some [] ∧ nest (init ++ [last]) = some [] ∧
      ∀ pre t post, transcript.terms.toList = pre ++ t :: post → t.isPart = true →
        ∃ expected, nest pre = some expected ∧ TermKind.statementEnd ∈ expected := by
  obtain ⟨t, ts, ps, ht, -, -, hsound, n, d, hn, hd, hrests, hterms⟩ :=
    run_reaches (fun g h => (hg g h).1) (fun r g h => (hb r g h).1) hr
  have hnested : d.Nested :=
    (kept_nested (answer_plain fun r g h => (hb r g h).2)).reaches hsound
      (answer_built fun r g h => (hb r g h).1) (Nested.start (fun g h => (hg g h).2) ht hsound) hn
  obtain ⟨init, last, hall, hlast, hinit, hnest, hnest'⟩ :=
    hnested.complete (Interpreter.step_eof hrests).1
  rw [hrests.queue_eq_nil hd, List.append_nil, hterms] at hall hnest'
  refine ⟨init, last, hall, hlast, hinit, hnest, hall ▸ hnest', fun pre t post hpre hpart => ?_⟩
  rw [hpre] at hnest'
  exact exists_nest_of_isPart hnest' hpart

/-- A declaration, and then a statement with a block that is not closed. -/
theorem run_nested_unclosed :
    (∀ g, (none : Option Grammar) = some g → g.Built ∧ g.Plain) ∧
    (∀ r g, Resolver.standard r = some g → g.Built ∧ g.Plain) ∧
    ∃ transcript, run 200 "in" "doctype;\x7ba" .standard none .standard = .ok transcript ∧
      ∃ init last, transcript.terms.toList = init ++ [last] ∧ nest init = some [] ∧
        init.map (fun t => t.kind) = [.statementStart, .objectStart, .structural, .objectEnd,
          .statementEnd, .grammarIsLoaded, .statementStart, .blockStart, .statementStart, .value,
          .statementEnd, .blockEnd, .statementEnd] := by
  have hnone : ∀ g, (none : Option Grammar) = some g → g.Built ∧ g.Plain := fun g h => by cases h
  have hresolver : ∀ r g, Resolver.standard r = some g → g.Built ∧ g.Plain :=
    fun r g h => ⟨standard_built r g h, standard_plain r g h⟩
  have hpieces : Text.pieces Settings.standard.chunkSize "doctype;\x7ba".toList =
      ["doctype;\x7ba".toList] := Text.pieces_of_cut rfl
  have hkinds : ((run 200 "in" "doctype;\x7ba" .standard none .standard).toOption.map
      fun transcript => transcript.terms.toList.map fun t => t.kind) =
        some [.statementStart, .objectStart, .structural, .objectEnd, .statementEnd,
          .grammarIsLoaded, .statementStart, .blockStart, .statementStart, .value, .statementEnd,
          .blockEnd, .statementEnd, .eof] := by
    rw [run, hpieces]
    decide +kernel
  obtain ⟨transcript, hr, hkinds⟩ := exists_run hkinds
  refine ⟨hnone, hresolver, transcript, hr, ?_⟩
  obtain ⟨init, last, hterms, hlast, -, hnest, -⟩ :=
    run_nested 200 "in" _ .standard none .standard transcript hnone hresolver hr
  refine ⟨init, last, hterms, hnest, ?_⟩
  rw [hterms, List.map_append, List.map_singleton, hlast] at hkinds
  exact (List.append_inj' hkinds rfl).1

end Pipeline

end TermStream
