import TermStream.Diagnostic
import TermStream.Proofs.Interpreter.Contexts
import TermStream.Proofs.Phrase.Culprits
import TermStream.Proofs.Pipeline.Conservation
import TermStream.Proofs.Pipeline.Placement
import TermStream.Proofs.Standard.Runs

namespace TermStream

open Text

theorem Diagnostic.ofReport_of_cuts {r : Report} {text inside : List Char} (cause : ErrorChain)
    (h : r.location.Cuts text inside) :
    (ofReport (byteLength text) r cause).offset = r.location.start.offset ∧
      (ofReport (byteLength text) r cause).length = byteLength inside := by
  obtain ⟨before, after, rfl, hstart, hstop⟩ := h
  have hstart : r.location.start.offset = byteLength before := by
    rw [hstart, Position.behind_offset]
  have hstop : r.location.stop.offset = byteLength before + byteLength inside := by
    rw [hstop, Position.behind_offset, byteLength_append]
  rw [byteLength_append, byteLength_append]
  simp only [ofReport, hstart, hstop]
  omega

theorem Report.layer?_of_code {r : Report} {p : Problem} (h : r.code = p) :
    r.layer? = some p.layer := by
  rw [layer?, h, ErrorCode.problem?_ofProblem]
  rfl

theorem ErrorCode.ofProblem_inj {p q : Problem} (h : ofProblem p = ofProblem q) : p = q := by
  have hcode := congrArg problem? h
  rw [problem?_ofProblem, problem?_ofProblem] at hcode
  exact Option.some.inj hcode

/-- An error that a frame finds in a document with these phrases and terms: a phrase that is passed
over, one in the place of a string, a grammar with errors, or a string that names no context. -/
inductive Report.Found (ps : List Phrase) (terms : List Term) : Report → Prop where
  | unexpected (source : String) {p : Phrase} {t : Term} (hp : p ∈ ps) (hk : p.kind = .significant)
      (ht : t ∈ terms) (hs : t.Skips p) :
      Found ps terms ⟨Problem.unexpectedToken, [p.text], ⟨source, p.start, p.stop⟩⟩
  | missing (source : String) (property : DoctypeProperty) {p : Phrase} (hp : p ∈ ps) :
      Found ps terms ⟨Problem.missingDoctypeString, [property.keyword], ⟨source, p.start, p.stop⟩⟩
  | loaded (source id : String) {front back : List Phrase} (hps : ps = front ++ back) :
      Found ps terms
        ⟨Problem.grammarHasErrors, [id], .point source (.behind (textOf Phrase.text front))⟩
  | misnamed (source : String) {p : Phrase} {name : String} (hp : NamesContext ps p)
      (hn : p.stringBody? = some name) :
      Found ps terms ⟨Problem.unknownContext, [name], ⟨source, p.start, p.stop⟩⟩

theorem Report.Found.mono {ps : List Phrase} {terms terms' : List Term} {r : Report}
    (h : r.Found ps terms) (hs : terms ⊆ terms') : r.Found ps terms' := by
  cases h with
  | unexpected source hp hk ht hskips => exact .unexpected source hp hk (hs ht) hskips
  | missing source property hp => exact .missing source property hp
  | loaded source id hps => exact .loaded source id hps
  | misnamed source hp hn => exact .misnamed source hp hn

theorem NamesContext.mem {ps : List Phrase} {p : Phrase} (h : NamesContext ps p) : p ∈ ps := by
  obtain ⟨front, back, rfl, -⟩ := h
  exact List.mem_append_right _ List.mem_cons_self

namespace Course

variable {answer : GrammarReference → Grammar} {c d : Course} {progress : Progress}
  {ps past : List Phrase}

def allTerms (c : Course) : List Term := c.terms ++ c.interpreter.workspace.queue.toList

theorem allTerms_stepped (hs : c.Sound) : c.allTerms ⊆ c.stepped.allTerms := by
  have hadv := hs.advances
  generalize c.stepped = d at hadv ⊢
  cases hadv with
  | output ho => exact List.Subset.refl _
  | finish ho hs => exact List.Subset.refl _
  | move a below turn ho hstack ht =>
    intro t hmem
    rcases List.mem_append.1 hmem with hread | hqueued
    · exact List.mem_append_left _ hread
    · exact List.mem_append_right _ ((ht.adds hs.interpreter.queued).2.1 hqueued)

theorem allTerms_serve (hs : c.Sound) (hd : c.serve answer progress = some d) :
    d.allTerms = c.allTerms := by
  cases serve_serves hd with
  | read term t hr =>
    obtain ⟨q, rfl, hl, -⟩ := hs.interpreter.read_eq hr
    change c.terms ++ [term] ++ q.toList = c.terms ++ c.interpreter.workspace.queue.toList
    rw [hl, List.append_assoc]
    rfl
  | give p ps hp hc => rfl
  | provide r t hp =>
    obtain ⟨-, rfl⟩ := Interpreter.provideGrammar_ok hp
    rfl

/-- The place that a source has been read to is told by the terms, although one may be astray. -/
theorem Orderly.lastEnd_eq (h : c.Orderly) :
    c.interpreter.workspace.lastEnd = .behind (textOf Term.text c.allTerms) := by
  rcases h with h | ⟨front, e, back, he, h⟩
  · exact h.placed.lastEnd
  · have htext : e.text = "" := by
      rw [Term.text, he.2.1]
    rw [allTerms, h.terms_eq, h.lastEnd, textOf_append, textOf_append, textOf_cons, htext]
    rfl

theorem Accounts.exists_kept (h : c.Accounts ps) :
    ∃ taken : List (Frame × Phrase), ps = taken.map (·.2) ++ (c.cell.toList ++ c.phrases) ∧
      c.allTerms.filterMap Term.phrase = Interpreter.keptOf taken := by
  obtain ⟨taken, hwhole, hkept⟩ := h
  refine ⟨taken, hwhole, ?_⟩
  rw [allTerms, List.filterMap_append]
  exact hkept

theorem Accounts.textOf_eq (h : c.Accounts ps) (hps : ps = past ++ (c.cell.toList ++ c.phrases)) :
    textOf Term.text c.allTerms = textOf Phrase.text past := by
  obtain ⟨taken, hwhole, hphrases⟩ := h.exists_kept
  obtain rfl : past = taken.map (·.2) := List.append_cancel_right (hps.symm.trans hwhole)
  have hdropped : ∀ p ∈ taken.map (·.2), p.kind = .statementEnd → p.hasToken = false →
      p.text.toList = [] := by
    intro p _ _ hn
    rw [Phrase.text_toList, Option.isNone_iff_eq_none.1 (Option.isSome_eq_false_iff.1 hn)]
    rfl
  calc textOf Term.text c.allTerms
      = c.allTerms.flatMap fun t => t.phrase.toList.flatMap fun p => p.text.toList := by
        simp only [textOf, Term.text_toList]
    _ = (Interpreter.keptOf taken).flatMap fun p => p.text.toList := by
        rw [← flatMap_toList_filterMap, hphrases]
    _ = textOf Phrase.text (taken.map (·.2)) := Interpreter.flatMap_keptOf hdropped

/-- All errors that the frames have found so far, in a course of the phrases `ps` with the standard
grammar. -/
structure Explained (ps : List Phrase) (c : Course) : Prop where
  orderly : c.Orderly
  accounts : c.Accounts ps
  uses : c.Uses Grammar.IsStandard
  knows : ∃ past, ps = past ++ (c.cell.toList ++ c.phrases) ∧
    OnTop (DocumentFrame.Knows past) c.interpreter.stack
  found : c.AllTerms fun t => ∀ n ∈ t.ownErrors.nodes, n.1.Found ps c.allTerms

theorem Explained.knows_stepped (h : c.Explained ps) (hs : c.Sound) :
    ∃ past, ps = past ++ (c.stepped.cell.toList ++ c.stepped.phrases) ∧
      OnTop (DocumentFrame.Knows past) c.stepped.interpreter.stack := by
  obtain ⟨past, hps, hknows⟩ := h.knows
  have hadv := hs.advances
  generalize c.stepped = d at hadv ⊢
  cases hadv with
  | output ho => exact ⟨past, hps, hknows⟩
  | finish ho hs => exact ⟨past, hps, hknows⟩
  | move a below turn ho hstack ht =>
    have hshaped := hs.interpreter.shaped
    rw [hstack] at hshaped hknows
    refine ⟨past ++ (takenFrom c.cell turn.input).toList, ?_, ?_⟩
    · rw [hps, Interpreter.toList_takenFrom ht.input_eq, List.append_assoc, List.append_assoc]
    · apply ht.knows hshaped
      intro f hf
      exact hknows f a.result below (by rw [← hf])

theorem Explained.finds (h : c.Explained ps) (hs : c.Sound) {a : Activation}
    {below : List Activation} (hstack : c.interpreter.stack = a :: below) {errors : ErrorChain}
    (hf : a.frame.Finds c.interpreter.workspace c.stepped.interpreter.workspace c.cell errors) :
    ∀ n ∈ errors.nodes, n.1.Found ps c.stepped.allTerms := by
  obtain ⟨past, hps, hknows⟩ := h.knows
  have hcell : ∀ p, c.cell = some p → p ∈ ps := by
    intro p hp
    rw [hps, hp]
    exact List.mem_append_right _ List.mem_cons_self
  obtain ⟨frame, result⟩ := a
  intro n hn
  change frame.Finds _ _ _ _ at hf
  cases hf with
  | clean => cases hn
  | unexpected _ hi hk ht hskips =>
    obtain rfl := List.mem_singleton.1 hn
    exact .unexpected _ (hcell _ hi) hk (List.mem_append_right _ ht) hskips
  | missing f property hi =>
    obtain rfl := List.mem_singleton.1 hn
    exact .missing _ property (hcell _ hi)
  | loaded f hg =>
    obtain rfl := List.mem_singleton.1 hn
    rw [h.orderly.lastEnd_eq, h.accounts.textOf_eq hps]
    exact .loaded _ _ hps
  | @misnamed f name hp hname =>
    obtain rfl := List.mem_singleton.1 hn
    cases hknows f result below hstack with
    | opened ho =>
      obtain ⟨g, context, ho⟩ := ho
      cases ho.symm.trans hp
    | early _ hstems =>
      obtain ⟨p, hp⟩ := hstems name hname
      rw [hp.start_eq, hp.stop_eq]
      exact .misnamed _ (hps ▸ hp.names.append _) hp.name_eq
  | action hi ha =>
    -- the rules of the standard grammar report no errors
    exact absurd ha ((h.uses.rule hs hstack rfl).reportError_notMem _ _ _)

theorem kept_explained (ha : ∀ r, (answer r).IsStandard) : Kept answer (Explained ps) where
  stepped := by
    intro c hs h
    refine ⟨(kept_orderly answer).stepped hs h.orderly, h.accounts.stepped hs, h.uses.stepped hs,
      h.knows_stepped hs, ?_⟩
    refine AllTerms.stepped (fun t ht n hn => ?_) hs fun a below hstack t ht => ?_
    · exact (h.found t ht n hn).mono (allTerms_stepped hs)
    · exact h.finds hs hstack ht.errors
  serve := by
    intro c d progress hs h hd
    refine ⟨(kept_orderly answer).serve hs h.orderly hd, h.accounts.serve hs hd,
      h.uses.serve hs ha hd, ?_, ?_⟩
    · obtain ⟨past, hps, hknows⟩ := h.knows
      cases serve_serves hd with
      | read term t hr =>
        obtain ⟨q, rfl, -⟩ := hs.interpreter.read_eq hr
        exact ⟨past, hps, hknows⟩
      | give p ps hp hc =>
        rw [hc, hp] at hps
        exact ⟨past, hps, hknows⟩
      | provide r t hp =>
        obtain ⟨-, rfl⟩ := Interpreter.provideGrammar_ok hp
        exact ⟨past, hps, hknows⟩
    · rw [allTerms_serve hs hd]
      exact h.found.serve hs hd

end Course

/-- What stands where an error of the term `t` points, in a source with these phrases and terms. -/
structure Term.Underlines (ps : List Phrase) (terms : List Term) (t : Term) (r : Report)
    (cause : ErrorChain) (inside : List Char) : Prop where
  /-- The token that has a lexical error. -/
  lexical : r.layer? = some .lexical →
    ∃ k, t.token? = some k ∧ (r, cause) ∈ k.errors.nodes ∧ inside = k.text.toList
  unterminatedBlock : r.code = Problem.unterminatedBlock → inside = ['\x7b']
  unmatchedClosingCurly : r.code = Problem.unmatchedClosingCurly → inside = ['\x7d']
  /-- The token that is passed over because it has no place where it stands. -/
  unexpectedToken : r.code = Problem.unexpectedToken →
    ∃ u ∈ terms, ∃ p ∈ ps, ∃ k, u.Skips p ∧ p.kind = .significant ∧ p.token = some k ∧
      r.location.start = p.start ∧ r.location.stop = p.stop ∧ r.args = [k.text] ∧
      inside = k.text.toList
  /-- The string that names the context in the declaration. -/
  unknownContext : r.code = Problem.unknownContext →
    ∃ p k name, NamesContext ps p ∧ p.token = some k ∧ k.stringBody? = some name ∧
      r.location.start = p.start ∧ r.location.stop = p.stop ∧ r.args = [name] ∧
      inside = k.text.toList

section

variable {source text : String} {settings : Settings} {ts : List Token} {ps : List Phrase}
  {terms : List Term} {t : Term} {r : Report} {cause : ErrorChain} {k : Token} {p : Phrase}

theorem tokens_cut (hts : tokens source text settings = .ok ts) (hk : k ∈ ts) :
    Location.Cuts ⟨source, k.start, k.stop⟩ text.toList k.text.toList := by
  rw [← tokens_text hts]
  exact (tokens_laid hts).cuts hk source

theorem phrases_text (hts : tokens source text settings = .ok ts)
    (hps : phrasesOf source ts = .ok ps) : textOf Phrase.text ps = text.toList := by
  rw [textOf_filterMap_token, phrases_tokens (tokens_endsOnce hts) hps, tokens_text hts]

theorem phrases_cut (hts : tokens source text settings = .ok ts)
    (hps : phrasesOf source ts = .ok ps) (hp : p ∈ ps) (source' : String) :
    Location.Cuts ⟨source', p.start, p.stop⟩ text.toList p.text.toList := by
  rw [← phrases_text hts hps]
  exact (phrases_laid (tokens_laid hts) hps).cuts hp source'

theorem Report.layer?_ne {q : Problem} (hl : r.layer? = some .lexical) (hq : q.layer ≠ .lexical) :
    r.code ≠ q := by
  intro hc
  rw [layer?_of_code hc] at hl
  exact hq (Option.some.inj hl)

theorem Term.underlines_lexical (hts : tokens source text settings = .ok ts) (hk : k ∈ ts)
    (ht : t.token? = some k) (hr : (r, cause) ∈ k.errors.nodes) :
    ∃ inside, r.location.Cuts text.toList inside ∧ t.Underlines ps terms r cause inside := by
  have hlayer := tokens_lexical hts k hk _ hr
  refine ⟨k.text.toList, ?_, fun _ => ⟨k, ht, hr, rfl⟩, ?_, ?_, ?_, ?_⟩
  · rw [tokens_located hts k hk _ hr]
    exact tokens_cut hts hk
  · exact fun hc => absurd hc (Report.layer?_ne hlayer (by decide))
  · exact fun hc => absurd hc (Report.layer?_ne hlayer (by decide))
  · exact fun hc => absurd hc (Report.layer?_ne hlayer (by decide))
  · exact fun hc => absurd hc (Report.layer?_ne hlayer (by decide))

def Problem.Shows (ps : List Phrase) (terms : List Term) (r : Report) (inside : List Char) :
    Problem → Prop
  | .unterminatedBlock => inside = ['\x7b']
  | .unmatchedClosingCurly => inside = ['\x7d']
  | .unexpectedToken =>
    ∃ u ∈ terms, ∃ p ∈ ps, ∃ k, u.Skips p ∧ p.kind = .significant ∧ p.token = some k ∧
      r.location.start = p.start ∧ r.location.stop = p.stop ∧ r.args = [k.text] ∧
      inside = k.text.toList
  | .unknownContext =>
    ∃ p k name, NamesContext ps p ∧ p.token = some k ∧ k.stringBody? = some name ∧
      r.location.start = p.start ∧ r.location.stop = p.stop ∧ r.args = [name] ∧
      inside = k.text.toList
  | _ => True

theorem Problem.Shows.underlines {q : Problem} {inside : List Char}
    (h : q.Shows ps terms r inside) (hc : r.code = q) (hl : q.layer ≠ .lexical) :
    t.Underlines ps terms r cause inside where
  lexical := fun hlexical => absurd hc (Report.layer?_ne hlexical hl)
  unterminatedBlock := fun hq => by
    obtain rfl := ErrorCode.ofProblem_inj (hc.symm.trans hq)
    exact h
  unmatchedClosingCurly := fun hq => by
    obtain rfl := ErrorCode.ofProblem_inj (hc.symm.trans hq)
    exact h
  unexpectedToken := fun hq => by
    obtain rfl := ErrorCode.ofProblem_inj (hc.symm.trans hq)
    exact h
  unknownContext := fun hq => by
    obtain rfl := ErrorCode.ofProblem_inj (hc.symm.trans hq)
    exact h

theorem Grouped.Blames.underlines (h : Blames source ts r)
    (hts : tokens source text settings = .ok ts) (t : Term) (cause : ErrorChain) :
    ∃ inside, r.location.Cuts text.toList inside ∧ t.Underlines ps terms r cause inside := by
  cases h with
  | @stray k hk hkind =>
    refine ⟨_, tokens_cut hts hk, Problem.Shows.underlines ?_ rfl (by decide)⟩
    exact tokens_brace hts k hk '\x7d' (by rw [hkind]; rfl)
  | @unterminated k hk hkind =>
    refine ⟨_, tokens_cut hts hk, Problem.Shows.underlines ?_ rfl (by decide)⟩
    exact tokens_brace hts k hk '\x7b' (by rw [hkind]; rfl)

theorem Report.Found.underlines (h : r.Found ps terms) (hts : tokens source text settings = .ok ts)
    (hps : phrasesOf source ts = .ok ps) (t : Term) (cause : ErrorChain) :
    ∃ inside, r.location.Cuts text.toList inside ∧ t.Underlines ps terms r cause inside := by
  cases h with
  | @unexpected source' p u hp hkind hu hskips =>
    obtain ⟨k, hk⟩ := phrases_token (tokens_endsOnce hts) hps hp hkind
    have htext : p.text = k.text := by rw [Phrase.text, hk]
    refine ⟨_, phrases_cut hts hps hp source', Problem.Shows.underlines ?_ rfl (by decide)⟩
    exact ⟨u, hu, p, hp, k, hskips, hkind, hk, rfl, rfl, by rw [htext], by rw [htext]⟩
  | missing source' property hp =>
    refine ⟨_, phrases_cut hts hps hp source', Problem.Shows.underlines ?_ rfl (by decide)⟩
    trivial
  | @loaded source' id front back hsplit =>
    refine ⟨[], ?_, Problem.Shows.underlines ?_ rfl (by decide)⟩
    · rw [← phrases_text hts hps, hsplit, textOf_append]
      exact Location.cuts_point source' _ _
    · trivial
  | @misnamed source' p name hp hname =>
    obtain ⟨k, hk, hbody⟩ := Option.bind_eq_some_iff.1 hname
    have htext : p.text = k.text := by rw [Phrase.text, hk]
    refine ⟨_, phrases_cut hts hps hp.mem source', Problem.Shows.underlines ?_ rfl (by decide)⟩
    exact ⟨p, k, name, hp, hk, hbody, rfl, rfl, rfl, by rw [htext]⟩

end

namespace Course

variable {source text : String} {settings : Settings} {ts : List Token} {ps : List Phrase}
  {c : Course} {t : Term} {p : Phrase}

theorem Explained.start {i : Interpreter} (hi : Pipeline.openInterpreter source none = .ok i)
    (hts : tokens source text settings = .ok ts) (hps : phrasesOf source ts = .ok ps)
    (hs : Course.Sound ⟨i, none, ps, []⟩) : Course.Explained ps ⟨i, none, ps, []⟩ where
  orderly := .inl (.start hi hts hps hs)
  accounts := Pipeline.accounts_start ps hi
  uses := .start (fun g h => by cases h) hi
  knows := by
    refine ⟨[], rfl, ?_⟩
    cases hi
    rintro f result below ⟨⟩
    exact DocumentFrame.knows_new
  found := .start hi

theorem Accounts.mem (h : c.Accounts ps) (ht : t ∈ c.allTerms) (hp : t.phrase = some p) :
    p ∈ ps := by
  obtain ⟨taken, hwhole, hphrases⟩ := h.exists_kept
  have hmem : p ∈ Interpreter.keptOf taken := hphrases ▸ List.mem_filterMap.2 ⟨t, ht, hp⟩
  rw [hwhole]
  apply List.mem_append_left
  obtain ⟨x, hx, rfl⟩ := List.mem_map.1 hmem
  exact List.mem_map_of_mem (List.mem_filter.1 hx).1

/-- Every error of every term is at a part of the text. -/
theorem Explained.exists_cut (h : c.Explained ps) (hts : tokens source text settings = .ok ts)
    (hps : phrasesOf source ts = .ok ps) (ht : t ∈ c.allTerms) {r : Report} {cause : ErrorChain}
    (hr : (r, cause) ∈ t.errors) :
    ∃ inside, r.location.Cuts text.toList inside ∧
      t.Underlines ps c.allTerms r cause inside := by
  rw [t.errors_eq, List.mem_append, List.mem_append] at hr
  rcases hr with (hown | hphrase) | hlexical
  · exact (h.found t ht _ hown).underlines hts hps t cause
  · obtain ⟨p, hp, hr⟩ := List.mem_flatMap.1 hphrase
    have hmem : p ∈ ps := h.accounts.mem ht (Option.mem_toList.1 hp)
    exact (phrases_blame (tokens_endsOnce hts) hps p hmem _ hr).underlines hts t cause
  · obtain ⟨p, hp, hr⟩ := List.mem_flatMap.1 hlexical
    obtain ⟨k, hk, hr⟩ := List.mem_flatMap.1 hr
    have hphrase : t.phrase = some p := Option.mem_toList.1 hp
    have htoken : p.token = some k := Option.mem_toList.1 hk
    have hmem : k ∈ ts := by
      rw [← phrases_tokens (tokens_endsOnce hts) hps]
      exact List.mem_filterMap.2 ⟨p, h.accounts.mem ht hphrase, htoken⟩
    exact Term.underlines_lexical hts hmem (by rw [Term.token?, hphrase]; exact htoken) hr

end Course

namespace Pipeline

open Course

/-- When a source has been read with the standard grammar, every error of every term is at a part of
its text, with both ends between characters, and a diagnostic of the error underlines just this
part. -/
theorem errors_underlined (source text : String) (settings : Settings) :
    (∃ n, ∀ fuel ≥ n, ∃ transcript,
      run fuel source text settings none .standard = .ok transcript) ∧
    ∃ ts ps, tokens source text settings = .ok ts ∧ phrasesOf source ts = .ok ps ∧
      ∀ fuel transcript, run fuel source text settings none .standard = .ok transcript →
        ∀ t ∈ transcript.terms.toList, ∀ r cause, (r, cause) ∈ t.errors →
          let diagnostic := Diagnostic.ofReport (byteLength text.toList) r cause
          ∃ before inside after, text.toList = before ++ inside ++ after ∧
            r.location.start.offset = byteLength before ∧
            r.location.stop.offset = byteLength (before ++ inside) ∧
            diagnostic.offset = byteLength before ∧ diagnostic.length = byteLength inside ∧
            t.Underlines ps transcript.terms.toList r cause inside := by
  refine ⟨exists_standard_run source text settings nofun, ?_⟩
  have ha : ∀ r, (answer source .standard r).IsStandard := answer_isStandard standard_isStandard
  have hnone : ∀ g, (none : Option Grammar) = some g → g.Built := nofun
  obtain ⟨-, -, ts, ps, -, -, hts, hps, -⟩ := exists_open source text settings .standard hnone
  refine ⟨ts, ps, hts, hps, ?_⟩
  intro fuel transcript hr t ht r cause hmem diagnostic
  obtain ⟨i, ts', ps', hi, hts', hps', hsound, n, d, hn, hd, hrests, hterms⟩ :=
    run_reaches hnone standard_built hr
  obtain rfl : ts = ts' := Except.ok.inj (hts.symm.trans hts')
  obtain rfl : ps = ps' := Except.ok.inj (hps.symm.trans hps')
  have hexplained : d.Explained ps :=
    (kept_explained ha).reaches hsound (fun r => (ha r).built) (.start hi hts hps hsound) hn
  have hall : d.allTerms = transcript.terms.toList := by
    rw [allTerms, hrests.queue_eq_nil hd, List.append_nil, hterms]
  have hcut : ∃ inside, r.location.Cuts text.toList inside ∧
      t.Underlines ps d.allTerms r cause inside := hexplained.exists_cut hts hps (hall ▸ ht) hmem
  obtain ⟨inside, hcuts, hunderlines⟩ := hcut
  obtain ⟨hoffset, hlength⟩ := Diagnostic.ofReport_of_cuts cause hcuts
  obtain ⟨before, after, htext, hstart, hstop⟩ := hcuts
  have hbefore : r.location.start.offset = byteLength before := by
    rw [hstart, Position.behind_offset]
  refine ⟨before, inside, after, htext, hbefore, ?_, hoffset.trans hbefore, hlength,
    hall ▸ hunderlines⟩
  rw [hstop, Position.behind_offset]

/-- A brace that closes nothing, behind a character of two bytes. -/
theorem errors_underlined_stray : ∃ transcript,
    run 200 "in" "\"é\"\x7d" .standard none .standard = .ok transcript ∧
      ∃ t ∈ transcript.terms.toList, ∃ r, (r, ErrorChain.nil) ∈ t.errors ∧
        let diagnostic := Diagnostic.ofReport (byteLength "\"é\"\x7d".toList) r .nil
        diagnostic.offset = 4 ∧ diagnostic.length = 1 ∧
          ∃ before after, "\"é\"\x7d".toList = before ++ ['\x7d'] ++ after ∧
            byteLength before = 4 := by
  let r : Report := ⟨Problem.unmatchedClosingCurly, [], ⟨"in", ⟨1, 4, 4⟩, ⟨1, 5, 5⟩⟩⟩
  have hpieces : Text.pieces Settings.standard.chunkSize "\"é\"\x7d".toList = ["\"é\"\x7d".toList] :=
    Text.pieces_of_cut rfl
  have herrors : ((run 200 "in" "\"é\"\x7d" .standard none .standard).toOption.map
      fun transcript => transcript.terms.toList[4]?.map Term.errors) = some (some [(r, .nil)]) := by
    rw [run, hpieces]
    decide +kernel
  obtain ⟨transcript, hr, hfound⟩ := exists_run herrors
  obtain ⟨t, ht, herrors⟩ := Option.map_eq_some_iff.1 hfound
  have hmem : t ∈ transcript.terms.toList := List.mem_of_getElem? ht
  have hnode : (r, ErrorChain.nil) ∈ t.errors := herrors ▸ List.mem_cons_self
  obtain ⟨-, ts, ps, -, -, hall⟩ := errors_underlined "in" "\"é\"\x7d" .standard
  obtain ⟨before, inside, after, htext, hstart, -, hoffset, hlength, hunderlines⟩ :=
    hall 200 transcript hr t hmem r .nil hnode
  obtain rfl : inside = ['\x7d'] := hunderlines.unmatchedClosingCurly rfl
  have hbefore : byteLength before = 4 := hstart.symm
  exact ⟨transcript, hr, t, hmem, r, hnode, hoffset.trans hbefore, hlength, before, after, htext,
    hbefore⟩

end Pipeline

end TermStream
