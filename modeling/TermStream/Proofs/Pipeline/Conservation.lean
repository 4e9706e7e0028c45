import TermStream.Proofs.Interpreter.Sessions
import TermStream.Proofs.Pipeline.Readings

namespace TermStream

namespace Phrase

def lexicalErrors (p : Phrase) : List (Report × ErrorChain) :=
  p.token.toList.flatMap fun t => t.errors.nodes

theorem text_toList (p : Phrase) :
    p.text.toList = p.token.toList.flatMap fun t => t.text.toList := by
  unfold text
  cases p.token <;> simp

end Phrase

namespace Term

def token? (t : Term) : Option Token := t.phrase.bind Phrase.token

def phraseErrors (t : Term) : List (Report × ErrorChain) :=
  t.phrase.toList.flatMap fun p => p.errors.nodes

def lexicalErrors (t : Term) : List (Report × ErrorChain) :=
  t.phrase.toList.flatMap Phrase.lexicalErrors

theorem errors_eq (t : Term) :
    t.errors = t.ownErrors.nodes ++ t.phraseErrors ++ t.lexicalErrors := by
  unfold Term.errors chains phraseErrors lexicalErrors Phrase.lexicalErrors
  split <;> simp [*]

theorem text_toList (t : Term) :
    t.text.toList = t.phrase.toList.flatMap fun p => p.text.toList := by
  unfold text
  cases t.phrase <;> simp

theorem token?_toList (t : Term) :
    t.token?.toList = t.phrase.toList.flatMap fun p => p.token.toList := by
  unfold token?
  cases t.phrase <;> simp

end Term

theorem flatMap_toList_filterMap {α β γ : Type} (f : α → Option β) (g : β → List γ) (as : List α) :
    (as.filterMap f).flatMap g = as.flatMap fun a => (f a).toList.flatMap g := by
  induction as with
  | nil => rfl
  | cons a as ih => cases h : f a <;> simp [h, ih]

theorem filterMap_eq_flatMap_toList {α β : Type} (f : α → Option β) (as : List α) :
    as.filterMap f = as.flatMap fun a => (f a).toList := by
  simpa using flatMap_toList_filterMap f (fun b => [b]) as

theorem Frame.drops_eq_true {frame : Frame} {p : Phrase} (h : frame.drops p = true) :
    p.kind = .statementEnd ∧ p.hasToken = false := by
  cases frame with
  | sequence f => simpa [drops] using h
  | _ => cases h

namespace Interpreter

theorem flatMap_keptOf {α : Type} {taken : List (Frame × Phrase)} {f : Phrase → List α}
    (h : ∀ p ∈ taken.map (·.2), p.kind = .statementEnd → p.hasToken = false → f p = []) :
    (keptOf taken).flatMap f = (taken.map (·.2)).flatMap f := by
  induction taken with
  | nil => rfl
  | cons a taken ih =>
    have hrest := ih fun p hp => h p (List.mem_cons_of_mem _ hp)
    rw [keptOf] at hrest ⊢
    rw [List.map_cons, List.flatMap_cons, ← hrest]
    cases hd : a.1.drops a.2 with
    | true =>
      obtain ⟨hk, ht⟩ := Frame.drops_eq_true hd
      rw [h a.2 List.mem_cons_self hk ht, List.filter_cons_of_neg (by simp [hd])]
      rfl
    | false =>
      rw [List.filter_cons_of_pos (by simp [hd])]
      rfl

end Interpreter

open Interpreter

namespace Course

variable {answer : GrammarReference → Grammar} {start c d : Course} {progress : Progress} {n : Nat}
  {whole : List Phrase}

/-- Every phrase of the whole is wrapped by a term, read or queued, or dropped by a sequence, or it
is still to be taken. -/
def Accounts (whole : List Phrase) (c : Course) : Prop :=
  ∃ taken : List (Frame × Phrase),
    whole = taken.map (·.2) ++ (c.cell.toList ++ c.phrases) ∧
    c.terms.filterMap Term.phrase ++ c.interpreter.workspace.wrapped = keptOf taken

theorem Accounts.stepped (h : c.Accounts whole) (hs : c.Sound) : c.stepped.Accounts whole := by
  obtain ⟨taken, hwhole, hkept⟩ := h
  obtain ⟨hwrapped, hcell⟩ := hs.interpreter.step_takes c.cell
  refine ⟨taken ++ (c.interpreter.taking c.cell).toList, ?_, ?_⟩
  · rw [hwhole, hcell]
    simp [Course.stepped]
  · rw [keptOf_append, ← hkept, List.append_assoc, ← hwrapped]
    rfl

theorem Accounts.serve (h : c.Accounts whole) (hs : c.Sound)
    (hd : c.serve answer progress = some d) : d.Accounts whole := by
  obtain ⟨taken, hwhole, hkept⟩ := h
  cases serve_serves hd with
  | read term t hr =>
    obtain ⟨q, rfl, hl, -⟩ := hs.interpreter.read_eq hr
    refine ⟨taken, hwhole, ?_⟩
    rw [← hkept]
    simp only [Workspace.wrapped, hl, List.filterMap_append, List.append_assoc]
    cases hp : term.phrase <;> simp [hp]
  | give p ps hp hc =>
    refine ⟨taken, ?_, hkept⟩
    rw [hwhole, hc, hp]
    rfl
  | provide r t hp =>
    obtain ⟨-, rfl⟩ := Interpreter.provideGrammar_ok hp
    exact ⟨taken, hwhole, hkept⟩

theorem Accounts.reaches (h : start.Accounts whole) (hs : start.Sound) (ha : ∀ r, (answer r).Built)
    (hd : start.Reaches answer n d) : d.Accounts whole := by
  have hkept : Kept answer (Accounts whole) := ⟨fun hs h => h.stepped hs, fun hs h => h.serve hs⟩
  exact hkept.reaches hs ha h hd

theorem Accounts.exists_taken (h : c.Accounts whole) (hs : c.Sound) (hr : c.Rests .eof) :
    ∃ taken : List (Frame × Phrase),
      whole = taken.map (·.2) ∧ c.terms.filterMap Term.phrase = keptOf taken := by
  obtain ⟨taken, hwhole, hkept⟩ := h
  rw [hs.ending.eq_nil (Interpreter.step_eof hr).1, List.append_nil] at hwhole
  rw [Workspace.wrapped, hr.queue_eq_nil hs, List.filterMap_nil, List.append_nil] at hkept
  exact ⟨taken, hwhole, hkept⟩

end Course

namespace Pipeline

open Course

theorem accounts_start {source : String} {grammar : Option Grammar} {t : Interpreter}
    (ps : List Phrase) (ht : openInterpreter source grammar = .ok t) :
    Course.Accounts ps ⟨t, none, ps, []⟩ := by
  refine ⟨[], rfl, ?_⟩
  cases grammar <;> cases ht <;> rfl

/-- The terms of a source that has been read to its end carry all that its phrases do. -/
theorem terms_carry {α : Type} {terms : List Term} {ps : List Phrase}
    {taken : List (Frame × Phrase)} {f : Phrase → List α} (hps : ps = taken.map (·.2))
    (hterms : terms.filterMap Term.phrase = keptOf taken)
    (hf : ∀ p ∈ ps, p.kind = .statementEnd → p.hasToken = false → f p = []) :
    terms.flatMap (fun t => t.phrase.toList.flatMap f) = ps.flatMap f := by
  rw [← flatMap_toList_filterMap, hterms, hps]
  exact flatMap_keptOf (hps ▸ hf)

theorem terms_carry_tokens {α : Type} {terms : List Term} {ts : List Token} {ps : List Phrase}
    {taken : List (Frame × Phrase)} (f : Token → List α) (hps : ps = taken.map (·.2))
    (hterms : terms.filterMap Term.phrase = keptOf taken) (ht : Grouped.Tiling ts ps) :
    terms.flatMap (fun t => t.phrase.toList.flatMap fun p => p.token.toList.flatMap f) =
      ts.flatMap f := by
  rw [terms_carry hps hterms, ← ht.tokens_eq, flatMap_toList_filterMap]
  intro p _ _ hn
  rw [Option.isSome_eq_false_iff.1 hn |> Option.isNone_iff_eq_none.1]
  rfl

/-- In any session with an interpreter the phrases that the terms wrap, read or queued, are those
that have been taken from the cell, in this order, but for the ends of statements without a token
that sequences drop. So when a pipeline reports the end of a source, the terms have all of its text,
and every lexical error and every error of its structure is on exactly one term. -/
theorem phrases_kept :
    (∀ calls : List Interpreter.Call, (∀ call ∈ calls, call.Builds) →
      let s := Session.new.performAll calls
      s.given = s.taken.map (·.2) ++ s.cell.toList ∧
      s.terms.filterMap Term.phrase ++
          s.interpreter.workspace.queue.toList.filterMap Term.phrase = keptOf s.taken) ∧
    ∀ (source text : String) (settings : Settings) (grammar : Option Grammar) (resolver : Resolver)
      (calls : List Call), (∀ g, grammar = some g → g.Built) →
      (∀ r g, resolver r = some g → g.Built) → Schedule text.toList calls →
      ∃ p ts ps, openPipeline source settings grammar = .ok p ∧
        tokens source text settings = .ok ts ∧ phrasesOf source ts = .ok ps ∧
        let r := Reading.performAll resolver ⟨p, []⟩ calls
        ∀ fuel, (r.pipeline.parse fuel).1 = .ok .eof →
          r.terms.flatMap (fun t => t.text.toList) = text.toList ∧
          r.terms.filterMap Term.token? = ts ∧
          r.terms.flatMap Term.lexicalErrors = ts.flatMap (fun k => k.errors.nodes) ∧
          r.terms.flatMap Term.phraseErrors = ps.flatMap (fun p => p.errors.nodes) ∧
          ∀ t ∈ r.terms, t.errors = t.ownErrors.nodes ++ t.phraseErrors ++ t.lexicalErrors := by
  refine ⟨fun calls hb => ?_, ?_⟩
  · have hs := Session.new_sound.performAll hb
    exact ⟨hs.given_eq, hs.wrapped_eq⟩
  · intro source text settings grammar resolver calls hg hb hc
    obtain ⟨t, p, ts, ps, ht, hp, htokens, hphrases, hsound, hfollows, htext, htiling⟩ :=
      exists_open source text settings resolver hg
    refine ⟨p, ts, ps, hp, htokens, hphrases, ?_⟩
    intro r fuel heof
    obtain ⟨rest, hr⟩ := hfollows.performAll hb hc
    obtain ⟨hlast, hrests⟩ := hr.work (p := r.pipeline) fuel fuel hb
    obtain ⟨n, hn⟩ := hlast.reached
    have hacc := (accounts_start ps ht).reaches hsound (answer_built hb) hn
    obtain ⟨taken, hps, hterms⟩ := hacc.exists_taken hlast.sound (hrests heof)
    have hterms : r.terms.filterMap Term.phrase = keptOf taken := hterms
    refine ⟨?_, ?_, terms_carry_tokens _ hps hterms htiling, ?_, fun t _ => t.errors_eq⟩
    · simp only [Term.text_toList, Phrase.text_toList]
      exact (terms_carry_tokens _ hps hterms htiling).trans htext
    · rw [filterMap_eq_flatMap_toList]
      simp only [Term.token?_toList]
      simpa using terms_carry_tokens (fun k => [k]) hps hterms htiling
    · refine terms_carry hps hterms fun p hp hk hn => ?_
      rw [htiling.clean p hp hk hn]
      rfl

/-- The end of a statement where there is none is dropped, and a brace without a partner is kept
with its error. -/
theorem phrases_kept_stray :
    let stray : Phrase := .boundary .statementEnd .start
    let session : List Interpreter.Call := [.start "in", .force (.standard true), .put stray, .parse 9]
    let calls : List Call := [.push ['\x7d'], .parse 30, .finish, .parse 30, .read, .parse 30, .read]
    let s := Session.new.performAll session
    (∀ call ∈ session, call.Builds) ∧ s.taken.map (·.2) = [stray] ∧
    s.terms.filterMap Term.phrase ++
      s.interpreter.workspace.queue.toList.filterMap Term.phrase = [] ∧
    Schedule "\x7d".toList calls ∧
    ∃ p, openPipeline "in" .standard (some (.standard true)) = .ok p ∧
      let r := Reading.performAll .standard ⟨p, []⟩ calls
      (r.pipeline.parse 30).1 = .ok .eof ∧
      r.terms.flatMap (fun t => t.text.toList) = "\x7d".toList := by
  intro stray session calls s
  have hb : ∀ call ∈ session, call.Builds := by
    intro call hmem
    simp only [session, List.mem_cons, List.not_mem_nil, or_false] at hmem
    rcases hmem with rfl | rfl | rfl | rfl
    · trivial
    · exact Grammar.built_standard true
    · trivial
    · trivial
  have hg : ∀ g, some (Grammar.standard true) = some g → g.Built := fun g h =>
    Option.some.inj h ▸ Grammar.built_standard true
  have hc : Schedule "\x7d".toList calls := ⟨[], rfl, rfl, trivial⟩
  obtain ⟨-, hkept⟩ := phrases_kept.1 session hb
  obtain ⟨p, ts, ps, hp, -, -, h⟩ :=
    phrases_kept.2 "in" "\x7d" .standard _ .standard calls hg standard_built hc
  have heof : ((Reading.performAll .standard ⟨p, []⟩ calls).pipeline.parse 30).1 = .ok .eof := by
    cases hp
    rfl
  exact ⟨hb, rfl, hkept, hc, p, hp, heof, (h 30 heof).1⟩

end Pipeline

end TermStream
