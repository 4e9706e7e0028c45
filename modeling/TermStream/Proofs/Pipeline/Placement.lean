import TermStream.Proofs.Interpreter.Placement
import TermStream.Proofs.Pipeline.Runs

namespace TermStream

open MarkedQueue

namespace Course

variable {answer : GrammarReference → Grammar} {c d : Course} {progress : Progress}
  {front back : List Term} {e : Term}

/-- All terms, read and queued, and then the phrases that are left stand one after the other. -/
structure Placed (c : Course) : Prop where
  placed : c.interpreter.workspace.Placed c.terms (c.cell.toList ++ c.phrases)
  fronted : c.interpreter.workspace.queue.Fronted

def Misnames (c : Course) : Prop :=
  ∃ f result below g, c.interpreter.stack = ⟨.document f, result⟩ :: below ∧ f.phase = .loaded ∧
    c.interpreter.workspace.grammar = some g ∧ f.Misnames g

theorem Placed.stepped (h : c.Placed) (hs : c.Sound) (hc : ¬ c.Misnames) : c.stepped.Placed := by
  have hadv := hs.advances
  generalize c.stepped = d at hadv ⊢
  cases hadv with
  | output ho => exact h
  | finish ho hs => exact ⟨h.placed, h.fronted⟩
  | move a below turn ho hstack ht =>
    refine ⟨ht.placed h.fronted ?_ h.placed, ht.keepsFront hs.interpreter.queued ho h.fronted⟩
    intro f hf hp g hg hm
    obtain ⟨frame, result⟩ := a
    obtain rfl : frame = .document f := hf
    exact hc ⟨f, result, below, g, hstack, hp, hg, hm⟩

theorem Placed.serve (h : c.Placed) (hs : c.Sound) (hd : c.serve answer progress = some d) :
    d.Placed := by
  cases serve_serves hd with
  | read term t hr =>
    obtain ⟨q, rfl, hl, -, hm, hsound⟩ := hs.interpreter.read_eq hr
    have hall : c.terms ++ c.interpreter.workspace.queue.toList =
        c.terms ++ [term] ++ q.toList := by rw [hl, List.append_assoc]; rfl
    refine ⟨⟨hsound.queued, ?_, ?_, ?_⟩, ?_⟩
    · exact hall ▸ h.placed.terms
    · exact hall ▸ h.placed.lastEnd
    · exact hall ▸ h.placed.rest
    · intro m hmem
      change m ∈ q.marks.getLast? at hmem
      rw [hm] at hmem
      cases hmem
  | give p ps hp hc =>
    have hplaced := h.placed
    rw [hc, hp] at hplaced
    exact ⟨hplaced, h.fronted⟩
  | provide r t hp =>
    obtain ⟨-, rfl⟩ := Interpreter.provideGrammar_ok hp
    exact ⟨h.placed.of_eq rfl rfl, h.fronted⟩

theorem Placed.terms_laid (h : c.Placed) : Term.Laid [] c.terms := (laid_append.1 h.placed.terms).1

theorem Placed.start {source text : String} {settings : Settings} {grammar : Option Grammar}
    {t : Interpreter} {ts : List Token} {ps : List Phrase}
    (ht : Pipeline.openInterpreter source grammar = .ok t)
    (htokens : tokens source text settings = .ok ts) (hphrases : phrasesOf source ts = .ok ps)
    (hs : Course.Sound ⟨t, none, ps, []⟩) : Course.Placed ⟨t, none, ps, []⟩ := by
  have hps := phrases_laid (tokens_laid htokens) hphrases
  cases grammar with
  | none =>
    cases ht
    exact ⟨⟨hs.interpreter.queued, trivial, rfl, hps⟩, empty_fronted⟩
  | some g =>
    cases ht
    exact ⟨⟨hs.interpreter.queued, trivial, rfl, hps⟩, empty_fronted⟩

structure Scripted (c : Course) : Prop where
  placed : c.Placed
  document : OnTop (DocumentFrame.Scripted c.interpreter.workspace) c.interpreter.stack

theorem Scripted.not_misnames (h : c.Scripted) : ¬ c.Misnames := by
  rintro ⟨f, result, below, g, hs, hp, -, hm⟩
  exact (h.document f result below hs).not_misnames hp g hm

theorem Scripted.stepped (h : c.Scripted) (hs : c.Sound) : c.stepped.Scripted := by
  refine ⟨h.placed.stepped hs h.not_misnames, ?_⟩
  have hadv := hs.advances
  generalize c.stepped = d at hadv ⊢
  cases hadv with
  | output ho => exact h.document
  | finish ho hs => exact h.document
  | move a below turn ho hstack ht =>
    have hshaped := hs.interpreter.shaped
    rw [hstack] at hshaped
    refine ht.onTop hshaped (fun f hf => .opened hf) ?_
    intro f f' hf hm
    obtain ⟨frame, result⟩ := a
    obtain rfl : frame = .document f := hf
    cases ht with
    | document f ht => exact ht.scripted (h.document f result below hstack) _ hm

theorem Scripted.serve (h : c.Scripted) (hs : c.Sound) (hd : c.serve answer progress = some d) :
    d.Scripted := by
  refine ⟨h.placed.serve hs hd, ?_⟩
  cases serve_serves hd with
  | read term t hr =>
    obtain ⟨q, rfl, -⟩ := hs.interpreter.read_eq hr
    intro f result below hstack
    cases h.document f result below hstack with
    | start hp hc hscript => exact .start hp hc hscript
    | before hp hc => exact .before hp hc
    | opened ho => exact .opened ho
  | give p ps hp hc => exact h.document
  | provide r t hp =>
    obtain ⟨hnone, rfl⟩ := Interpreter.provideGrammar_ok hp
    intro f result below hstack
    cases h.document f result below hstack with
    | start hp hc hscript => simp [hnone] at hscript
    | before hp hc => exact .before hp hc
    | opened ho => exact .opened ho

theorem Scripted.start {source : String} {g : Grammar} {t : Interpreter} {ps : List Phrase}
    (ht : Pipeline.openInterpreter source (some g) = .ok t) (hg : g.isScript = true)
    (h : Course.Placed ⟨t, none, ps, []⟩) : Course.Scripted ⟨t, none, ps, []⟩ := by
  cases ht
  refine ⟨h, ?_⟩
  intro f result below hstack
  cases hstack
  refine .start rfl rfl ?_
  change (true && g.isScript) = true
  rw [hg]
  rfl

theorem kept_scripted (answer : GrammarReference → Grammar) : Kept answer Scripted :=
  ⟨fun hs h => h.stepped hs, fun hs h => h.serve hs⟩

end Course

namespace Pipeline

open Course

/-- With a script grammar that is forced on it, whatever the grammar is and whatever calls are made,
a pipeline hands over every term with the position at which the text of the terms before it ends:
its offset is the size of that text, and line and column are those that the text leads to. -/
theorem terms_placed (source text : String) (settings : Settings) (g : Grammar)
    (resolver : Resolver) (calls : List Call) (hg : g.Built) (hs : g.isScript = true)
    (hb : ∀ r g, resolver r = some g → g.Built) (hc : Schedule text.toList calls) :
    ∃ p, openPipeline source settings (some g) = .ok p ∧
      let r := Reading.performAll resolver ⟨p, []⟩ calls
      ∀ pre t post, r.terms = pre ++ t :: post →
        t.start = Position.start.advanceAll none (pre.flatMap fun t => t.text.toList) ∧
        t.start.offset = (pre.map fun t => Text.byteLength t.text.toList).sum := by
  have hg' : ∀ g', some g = some g' → g'.Built := fun g' h => Option.some.inj h ▸ hg
  obtain ⟨t, p, ts, ps, ht, hp, htokens, hphrases, hsound, hfollows, -, -⟩ :=
    exists_open source text settings resolver hg'
  refine ⟨p, hp, ?_⟩
  intro r pre t₁ post hterms
  obtain ⟨rest, hr⟩ := hfollows.performAll hb hc
  obtain ⟨n, hn⟩ := hr.reached
  have hstart := Scripted.start ht hs (Placed.start ht htokens hphrases hsound)
  have hscripted := (kept_scripted _).reaches hsound (answer_built hb) hstart hn
  have hlaid : Term.Laid [] r.terms := hscripted.placed.terms_laid
  rw [hterms] at hlaid
  have hplace : t₁.start = .behind (textOf Term.text pre) := (laid_append.1 hlaid).2.1
  refine ⟨hplace, ?_⟩
  rw [hplace, Position.behind_offset, byteLength_textOf]

/-- A statement that a line break ends, and a stray semicolon on the next line. -/
theorem terms_placed_bracket :
    let calls : List Call := [.push "(\n;".toList, .finish, .parse 40, .read, .parse 40, .read,
      .parse 40, .read, .parse 40, .read]
    (Grammar.standard true).Built ∧ (Grammar.standard true).isScript = true ∧
    (∀ r g, Resolver.standard r = some g → g.Built) ∧ Schedule "(\n;".toList calls ∧
    ∃ p, openPipeline "in" .standard (some (.standard true)) = .ok p ∧
      let r := Reading.performAll .standard ⟨p, []⟩ calls
      ∃ pre t, r.terms = pre ++ [t] ∧ (pre.flatMap fun t => t.text.toList) = "(\n".toList ∧
        t.start = ⟨2, 1, 2⟩ := by
  intro calls
  have hc : Schedule "(\n;".toList calls := ⟨[], rfl, rfl, trivial⟩
  obtain ⟨p, hp, h⟩ := terms_placed "in" "(\n;" .standard (.standard true) .standard calls
    (Grammar.built_standard true) rfl standard_built hc
  refine ⟨Grammar.built_standard true, rfl, standard_built, hc, p, hp, ?_⟩
  cases hp
  intro r
  have hterms : r.terms = r.terms.take 3 ++ [r.terms[3]!] := rfl
  have htext : ((r.terms.take 3).flatMap fun t => t.text.toList) = "(\n".toList := rfl
  refine ⟨_, _, hterms, htext, ?_⟩
  rw [(h _ _ _ hterms).1, htext]
  rfl

end Pipeline

def Term.IsUnknownContext (e : Term) : Prop :=
  e.kind = .syntaxError ∧ e.phrase = none ∧
    ∃ name location, e.ownErrors = .single ⟨Problem.unknownContext, [name], location⟩

theorem DocumentFrame.chooseContext_misnamed {f : DocumentFrame} {g : Grammar} {c : NamedContext}
    (ws : Workspace) (hc : f.context = some c) (hn : g.contextNamed? c.name = none) :
    (f.chooseContext ws g).2 =
      ws.reportError Problem.unknownContext [c.name] c.start c.stop := by
  rw [chooseContext, hc]
  dsimp only
  rw [hn]

namespace Course

variable {answer : GrammarReference → Grammar} {c d : Course} {progress : Progress}
  {front back : List Term} {e : Term}

/-- But for the term `e` all terms stand one after the other. By the time there is a mark again, `e`
has been read. -/
structure Strays (front : List Term) (e : Term) (back : List Term) (c : Course) : Prop where
  terms_eq : c.terms ++ c.interpreter.workspace.queue.toList = front ++ e :: back
  laid : Term.Laid [] (front ++ back)
  lastEnd : c.interpreter.workspace.lastEnd = .behind (textOf Term.text (front ++ back))
  rest : Phrase.Laid (textOf Term.text (front ++ back)) (c.cell.toList ++ c.phrases)
  read : c.interpreter.workspace.queue.marks ≠ [] → front.length < c.terms.length
  fronted : c.interpreter.workspace.queue.Fronted
  opened : OnTop DocumentFrame.Opened c.interpreter.stack

theorem Strays.exists_mid (h : c.Strays front e back) (hs : c.Sound)
    (ho : c.interpreter.workspace.queue.hasOutput = false) :
    ∃ mid, c.terms = front ++ e :: mid ∧ back = mid ++ c.interpreter.workspace.queue.toList := by
  have hterms := h.terms_eq
  by_cases hm : c.interpreter.workspace.queue.marks = []
  · have hq : c.interpreter.workspace.queue.toList = [] :=
      hs.interpreter.queued.sound.toList_eq_nil ho hm
    rw [hq, List.append_nil] at hterms
    exact ⟨back, hterms, by rw [hq, List.append_nil]⟩
  · have hlt := h.read hm
    rcases List.append_eq_append_iff.1 hterms with ⟨mid, hfront, -⟩ | ⟨mid, hfront, hback⟩
    · rw [hfront, List.length_append] at hlt
      omega
    · cases mid with
      | nil =>
        rw [hfront, List.append_nil] at hlt
        exact absurd hlt (Nat.lt_irrefl _)
      | cons e' mid =>
        obtain ⟨he, hback'⟩ := List.cons.inj hback
        exact ⟨mid, he ▸ hfront, hback'⟩

theorem Strays.stepped (h : c.Strays front e back) (hs : c.Sound) :
    ∃ back', c.stepped.Strays front e back' := by
  have hadv := hs.advances
  generalize c.stepped = d at hadv ⊢
  cases hadv with
  | output ho => exact ⟨back, h⟩
  | finish ho hs =>
    exact ⟨back, h.terms_eq, h.laid, h.lastEnd, h.rest, h.read, h.fronted, h.opened⟩
  | move a below turn ho hstack ht =>
    obtain ⟨mid, hterms, rfl⟩ := h.exists_mid hs ho
    have hplaced : c.interpreter.workspace.Placed (front ++ mid) (c.cell.toList ++ c.phrases) := by
      refine ⟨hs.interpreter.queued, ?_, ?_, ?_⟩
      · rw [List.append_assoc]
        exact h.laid
      · rw [List.append_assoc]
        exact h.lastEnd
      · rw [List.append_assoc]
        exact h.rest
    obtain ⟨frame, result⟩ := a
    have hplaced' := ht.placed h.fronted (fun f hf hp g hg hm => by
      obtain rfl : frame = .document f := hf
      obtain ⟨g', context, ho⟩ := h.opened f result below hstack
      cases ho.symm.trans hp) hplaced
    have hshaped := hs.interpreter.shaped
    rw [hstack] at hshaped
    have hlt : front.length < c.terms.length := by
      rw [hterms, List.length_append, List.length_cons]
      omega
    refine ⟨mid ++ turn.workspace.queue.toList, ?_, ?_, ?_, ?_, fun _ => hlt,
      ht.keepsFront hs.interpreter.queued ho h.fronted, ?_⟩
    · change c.terms ++ turn.workspace.queue.toList = _
      rw [hterms, List.append_assoc]
      rfl
    · rw [← List.append_assoc]
      exact hplaced'.terms
    · rw [← List.append_assoc]
      exact hplaced'.lastEnd
    · rw [← List.append_assoc]
      exact hplaced'.rest
    · refine ht.onTop hshaped (fun f hf => hf) ?_
      rintro f f' rfl hm
      cases ht with
      | document f ht => exact ht.opened (h.opened f result below hstack) hm

theorem Strays.serve (h : c.Strays front e back) (hs : c.Sound)
    (hd : c.serve answer progress = some d) : d.Strays front e back := by
  cases serve_serves hd with
  | read term t hr =>
    obtain ⟨q, rfl, hl, -, hm, -⟩ := hs.interpreter.read_eq hr
    refine ⟨?_, h.laid, h.lastEnd, h.rest, fun hne => absurd hm hne, ?_, h.opened⟩
    · rw [← h.terms_eq, hl, List.append_assoc]
      rfl
    · intro m hmem
      change m ∈ q.marks.getLast? at hmem
      rw [hm] at hmem
      cases hmem
  | give p ps hp hc =>
    have hrest := h.rest
    rw [hc, hp] at hrest
    exact ⟨h.terms_eq, h.laid, h.lastEnd, hrest, h.read, h.fronted, h.opened⟩
  | provide r t hp =>
    obtain ⟨-, rfl⟩ := Interpreter.provideGrammar_ok hp
    exact ⟨h.terms_eq, h.laid, h.lastEnd, h.rest, h.read, h.fronted, h.opened⟩

/-- When the document is given a context that it has not asked for, the error about it is the only
term that is not where it comes. -/
theorem Placed.strays (h : c.Placed) (hs : c.Sound) (hc : c.Misnames) :
    c.stepped.Placed ∨ ∃ front e, e.IsUnknownContext ∧ c.stepped.Strays front e [] := by
  obtain ⟨f, result, below, g, hstack, hp, hg, n, hn, hmissing⟩ := hc
  have hadv := hs.advances
  generalize c.stepped = d at hadv ⊢
  cases hadv with
  | output ho => exact .inl h
  | finish ho hs => exact .inl ⟨h.placed, h.fronted⟩
  | move a below' turn ho hstack' ht =>
    rw [hstack] at hstack'
    cases hstack'
    have hfronted := ht.keepsFront hs.interpreter.queued ho h.fronted
    have hshaped := hs.interpreter.shaped
    have hmarks : c.interpreter.workspace.queue.marks = [] := by
      have hr := congrArg Resources.marks hs.interpreter.resources
      rw [hstack] at hr hshaped
      obtain rfl := hshaped.below_eq_nil rfl
      simp only [held, Frame.hold, hp] at hr
      exact List.length_eq_zero_iff.1 hr
    generalize hcell : c.cell = input at ht
    cases ht with
    | document f ht =>
      cases ht with
      | load input g' hp' hg' =>
        obtain rfl : g = g' := Option.some.inj (hg.symm.trans hg')
        have hwa := DocumentFrame.placed_announce g h.placed
        have hma := DocumentFrame.marks_announce c.interpreter.workspace g
        have hchoose := DocumentFrame.chooseContext_misnamed
          (DocumentFrame.announce c.interpreter.workspace g) hn hmissing
        generalize DocumentFrame.announce c.interpreter.workspace g = wa
          at hwa hma hchoose hfronted ⊢
        right
        let error := (Term.event .syntaxError .unknown n.start).withErrors
          (wa.error Problem.unknownContext [n.name] n.start n.stop)
        have hqueue : (f.chooseContext wa g).2.queue.toList =
            wa.queue.toList ++ [wa.stamp error] := by
          rw [hchoose]
          exact hwa.queued.sound.toList_append _
        refine ⟨c.terms ++ wa.queue.toList, wa.stamp error, ⟨rfl, rfl, n.name, _, rfl⟩, ?_, ?_, ?_,
          ?_, fun hne => absurd ?_ hne, hfronted, ?_⟩
        · change c.terms ++ (f.chooseContext wa g).2.queue.toList = _
          rw [hqueue, List.append_assoc]
        · rw [List.append_nil]
          exact hwa.terms
        · rw [List.append_nil]
          change (f.chooseContext wa g).2.lastEnd = _
          rw [hchoose]
          exact hwa.lastEnd
        · rw [List.append_nil, ← hcell]
          exact hwa.rest
        · change (f.chooseContext wa g).2.queue.marks = []
          rw [DocumentFrame.marks_chooseContext, hma, hmarks]
        · intro f' result' rest hstack'
          cases hstack'
      | hungry hr => simp [DocumentFrame.Reads, hp] at hr
      | _ => simp_all

/-- The terms stand one after the other, but perhaps for one. -/
def Orderly (c : Course) : Prop :=
  c.Placed ∨ ∃ front e back, e.IsUnknownContext ∧ c.Strays front e back

theorem kept_orderly (answer : GrammarReference → Grammar) : Kept answer Orderly where
  stepped := by
    rintro c hs (h | ⟨front, e, back, he, h⟩)
    · by_cases hc : c.Misnames
      · rcases h.strays hs hc with h' | ⟨front, e, he, h'⟩
        · exact .inl h'
        · exact .inr ⟨front, e, [], he, h'⟩
      · exact .inl (h.stepped hs hc)
    · obtain ⟨back', h'⟩ := h.stepped hs
      exact .inr ⟨front, e, back', he, h'⟩
  serve := by
    rintro c d progress hs (h | ⟨front, e, back, he, h⟩) hd
    · exact .inl (h.serve hs hd)
    · exact .inr ⟨front, e, back, he, h.serve hs hd⟩

end Course

namespace Pipeline

open Course

/-- Without a grammar that is forced on it, a run that ends reads terms whose offsets never
decrease. There is one exception: the error about a context that the grammar does not have may stand
before the term in front of it. The other terms are in order then. -/
theorem run_offsets (fuel : Nat) (source text : String) (settings : Settings) (resolver : Resolver)
    (transcript : Transcript) (hb : ∀ r g, resolver r = some g → g.Built)
    (hr : run fuel source text settings none resolver = .ok transcript) :
    let Ordered := List.Pairwise fun a b : Term => a.start.offset ≤ b.start.offset
    Ordered transcript.terms.toList ∨
      ∃ front e back, transcript.terms.toList = front ++ e :: back ∧ e.IsUnknownContext ∧
        Ordered (front ++ back) := by
  intro Ordered
  have hnone : ∀ g, (none : Option Grammar) = some g → g.Built := fun g h => by cases h
  obtain ⟨t, ts, ps, ht, htokens, hphrases, hsound, n, d, hn, hd, hrests, hterms⟩ :=
    run_reaches hnone hb hr
  have hstart : Orderly ⟨t, none, ps, []⟩ := .inl (Placed.start ht htokens hphrases hsound)
  rcases (kept_orderly _).reaches hsound (answer_built hb) hstart hn with
    h | ⟨front, e, back, he, h⟩
  · left
    rw [← hterms]
    exact h.terms_laid.offset_sorted
  · right
    refine ⟨front, e, back, ?_, he, h.laid.offset_sorted⟩
    rw [← hterms, ← h.terms_eq, hrests.queue_eq_nil hd, List.append_nil]

/-- A declaration asks for a context that the standard grammar does not have. The last term but one
goes back to the string. -/
theorem exists_run_nope : ∃ transcript,
    run 200 "in" "doctype context \"nope\"" .standard none .standard = .ok transcript ∧
      transcript.terms.toList.map (fun t => t.start.offset) =
        [0, 0, 0, 7, 8, 15, 16, 16, 22, 22, 22, 22, 16, 22] := by
  have hpieces : Text.pieces Settings.standard.chunkSize "doctype context \"nope\"".toList =
      ["doctype context \"nope\"".toList] := Text.pieces_of_cut rfl
  have hoffsets : ((run 200 "in" "doctype context \"nope\"" .standard none .standard).toOption.map
      fun transcript => transcript.terms.toList.map fun t => t.start.offset) =
        some [0, 0, 0, 7, 8, 15, 16, 16, 22, 22, 22, 22, 16, 22] := by
    rw [run, hpieces]
    decide +kernel
  exact exists_run hoffsets

theorem run_offsets_nope :
    (∀ r g, Resolver.standard r = some g → g.Built) ∧
    ∃ transcript,
      run 200 "in" "doctype context \"nope\"" .standard none .standard = .ok transcript ∧
      ∃ front e back, transcript.terms.toList = front ++ e :: back ∧ e.IsUnknownContext ∧
        (front ++ back).Pairwise fun a b => a.start.offset ≤ b.start.offset := by
  obtain ⟨transcript, hr, hoffsets⟩ := exists_run_nope
  refine ⟨standard_built, transcript, hr, ?_⟩
  apply (run_offsets 200 "in" _ .standard .standard transcript standard_built hr).resolve_left
  intro hordered
  rw [← List.pairwise_map, hoffsets] at hordered
  revert hordered
  decide

/-- The offsets of the terms of a run may decrease. -/
theorem run_offsets_not_ordered : ∃ transcript,
    run 200 "in" "doctype context \"nope\"" .standard none .standard = .ok transcript ∧
      ¬ transcript.terms.toList.Pairwise fun a b => a.start.offset ≤ b.start.offset := by
  obtain ⟨transcript, hr, hoffsets⟩ := exists_run_nope
  refine ⟨transcript, hr, fun hordered => ?_⟩
  rw [← List.pairwise_map, hoffsets] at hordered
  revert hordered
  decide

end Pipeline

end TermStream
