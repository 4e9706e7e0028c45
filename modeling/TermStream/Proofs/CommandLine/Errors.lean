import TermStream.CommandLine
import TermStream.Proofs.Phrase.Layers
import TermStream.Proofs.Standard.Errors

namespace TermStream

def Report.isLexical (r : Report) : Bool := r.layer? == some .lexical

theorem Grouped.Tiling.filter_allErrors {ts : List Token} {ps : List Phrase} (h : Tiling ts ps)
    (ht : ∀ t ∈ ts, ∀ n ∈ t.errors.nodes, n.1.layer? = some .lexical)
    (hp : ∀ p ∈ ps, ∀ n ∈ p.errors.nodes, n.1.layer? = some .phrase) :
    (ps.flatMap Phrase.allErrors).filter (fun n => n.1.isLexical) =
      ts.flatMap fun t => t.errors.nodes := by
  have hlexical : ∀ p ∈ ps,
      p.allErrors.filter (fun n => n.1.isLexical) = p.lexicalErrors := by
    intro p hmem
    have hown : p.errors.nodes.filter (fun n => n.1.isLexical) = [] :=
      List.filter_eq_nil_iff.2 fun n hn => by simp [Report.isLexical, hp p hmem n hn]
    have htoken : p.lexicalErrors.filter (fun n => n.1.isLexical) = p.lexicalErrors := by
      refine List.filter_eq_self.2 fun n hn => ?_
      obtain ⟨t, hpt, hn⟩ := List.mem_flatMap.1 hn
      have hts : t ∈ ts := by
        rw [← h.tokens_eq]
        exact List.mem_filterMap.2 ⟨p, hmem, Option.mem_toList.1 hpt⟩
      simp [Report.isLexical, ht t hts n hn]
    rw [Phrase.allErrors, List.filter_append, hown, htoken, List.nil_append]
  rw [List.filter_flatMap, List.flatMap_congr hlexical, ← h.tokens_eq, flatMap_toList_filterMap]
  rfl

namespace CommandLine

theorem tokenErrors_eq (ts : List Token) :
    tokenErrors ts = (ts.flatMap fun t => t.errors.nodes).map Prod.fst := by
  rw [List.map_flatMap]
  rfl

theorem phraseErrors_eq (ps : List Phrase) :
    phraseErrors ps = (ps.flatMap Phrase.allErrors).map Prod.fst := by
  rw [phraseErrors, List.map_flatMap]
  refine List.flatMap_congr fun p _ => ?_
  rw [Phrase.allErrors, Phrase.lexicalErrors, List.map_append]
  cases p.token <;> simp [ErrorChain.reports]

theorem termErrors_eq (ts : List Term) : termErrors ts = (ts.flatMap Term.errors).map Prod.fst := by
  rw [List.map_flatMap]
  rfl

theorem filter_phraseErrors {ts : List Token} {ps : List Phrase}
    (h : (ps.flatMap Phrase.allErrors).filter (fun n => n.1.isLexical) =
      ts.flatMap fun t => t.errors.nodes) :
    (phraseErrors ps).filter Report.isLexical = tokenErrors ts := by
  rw [phraseErrors_eq, tokenErrors_eq, List.filter_map, ← h]
  rfl

variable {options : Options}

theorem script_errors (name text : String) (h : options.script = true) :
    ∃ ts ps, tokens name text options.settings = .ok ts ∧
      phrases name text options.settings = .ok ps ∧
      (∃ n, ∀ fuel ≥ n, ∃ terms, termsOf fuel name text options = .ok terms) ∧
      (∀ fuel terms, termsOf fuel name text options = .ok terms →
        terms.flatMap Term.errors = ps.flatMap Phrase.allErrors) ∧
      (ps.flatMap Phrase.allErrors).filter (fun n => n.1.isLexical) =
        ts.flatMap fun t => t.errors.nodes := by
  obtain ⟨ts, ps, hts, hps, htiling, ⟨n, hn⟩, hrun⟩ :=
    Pipeline.script_run name text options.settings Pipeline.standard_built
  have hphrases : phrases name text options.settings = .ok ps := by
    rw [phrases_eq_phrasesOf, hts]
    exact hps
  refine ⟨ts, ps, hts, hphrases, ⟨n, fun fuel hle => ?_⟩, fun fuel terms hterms => ?_,
    htiling.filter_allErrors (tokens_lexical hts) (phrases_layer (tokens_endsOnce hts) hps)⟩
  · obtain ⟨transcript, hr⟩ := hn fuel hle
    exact ⟨transcript.terms.toList, by rw [termsOf, if_pos h, hr]; rfl⟩
  · rw [termsOf, if_pos h] at hterms
    cases hr : Pipeline.run fuel name text options.settings (some (.standard true)) .standard with
    | error e =>
      rw [hr] at hterms
      cases hterms
    | ok transcript =>
      rw [hr] at hterms
      cases hterms
      exact (hrun fuel transcript hr).2

/-- With a script the commands `phrases`, `terms` and `check` have one exit code, and fail if `lex`
does. -/
theorem execute_agree (name text : String) (h : options.script = true) :
    ∃ n, ∀ fuel ≥ n,
      let exit := fun command noTrivia =>
        (execute fuel ⟨command, name, options, noTrivia⟩ text).exit
      ∃ code, (∀ command ≠ .lex, ∀ noTrivia, exit command noTrivia = code) ∧
        ∀ noTrivia, exit .lex noTrivia ≠ 0 → code ≠ 0 := by
  obtain ⟨ts, ps, hts, hps, ⟨n, hn⟩, herrors, hlexical⟩ := script_errors name text h
  refine ⟨n, fun fuel hle => ⟨(Outcome.listing [] (phraseErrors ps)).exit, ?_, ?_⟩⟩
  · obtain ⟨terms, hterms⟩ := hn fuel hle
    have hsame : termErrors terms = phraseErrors ps := by
      rw [termErrors_eq, herrors fuel terms hterms, phraseErrors_eq]
    intro command hcommand noTrivia
    cases command with
    | lex => exact absurd rfl hcommand
    | phrases =>
      simp only [execute, hps]
      rfl
    | terms | check =>
      simp only [execute, hterms, hsame]
      rfl
  · intro noTrivia hlex hcode
    apply hlex
    have hempty : phraseErrors ps = [] := by
      simpa [Outcome.listing] using hcode
    have hnone : tokenErrors ts = [] := by
      rw [← filter_phraseErrors hlexical, hempty]
      rfl
    simp only [execute, hts, hnone]
    rfl

/-- With a script the commands agree on errors. The errors of the terms are those of the phrases in
the same order, and the lexical ones among them are those of the tokens, whatever the size of the
pieces and the limit for tokens are. So the commands `phrases`, `terms` and `check` always have the
same exit code, and fail if `lex` does. -/
theorem commands_agree (options : Options) (h : options.script = true) :
    (∀ name text, ∃ ts ps, tokens name text options.settings = .ok ts ∧
      phrases name text options.settings = .ok ps ∧
      (∃ n, ∀ fuel ≥ n, ∃ terms, termsOf fuel name text options = .ok terms) ∧
      ∀ fuel terms, termsOf fuel name text options = .ok terms →
        terms.flatMap Term.errors = ps.flatMap Phrase.allErrors ∧
        (terms.flatMap Term.errors).filter (fun n => n.1.isLexical) =
          ts.flatMap (fun t => t.errors.nodes) ∧
        termErrors terms = phraseErrors ps ∧
        (termErrors terms).filter Report.isLexical = tokenErrors ts) ∧
    ∀ read file, ∃ n, ∀ fuel ≥ n,
      let exit := fun command noTrivia =>
        (answer fuel read (.run ⟨command, file, options, noTrivia⟩)).exit
      ∃ code, (∀ command ≠ .lex, ∀ noTrivia, exit command noTrivia = code) ∧
        ∀ noTrivia, exit .lex noTrivia ≠ 0 → code ≠ 0 := by
  refine ⟨fun name text => ?_, fun read file => ?_⟩
  · obtain ⟨ts, ps, hts, hps, hends, herrors, hlexical⟩ := script_errors name text h
    refine ⟨ts, ps, hts, hps, hends, fun fuel terms hterms => ?_⟩
    have hnodes := herrors fuel terms hterms
    have hreports : termErrors terms = phraseErrors ps := by
      rw [termErrors_eq, hnodes, phraseErrors_eq]
    exact ⟨hnodes, hnodes ▸ hlexical, hreports, hreports ▸ filter_phraseErrors hlexical⟩
  · cases hread : (read file).bind sourceText with
    | error fault =>
      refine ⟨0, fun fuel _ => ⟨1, fun command _ noTrivia => ?_, fun _ _ => Nat.one_ne_zero⟩⟩
      simp only [answer, hread]
      rfl
    | ok text =>
      obtain ⟨n, hn⟩ := execute_agree file text h
      refine ⟨n, fun fuel hle => ?_⟩
      simp only [answer, hread]
      exact hn fuel hle

/-- A word that is cut in two, and a brace without a partner, in pieces of one byte. -/
theorem commands_agree_stray :
    let options : Options := ⟨some 2, false, some 1, true⟩
    options.script = true ∧
      ∃ ts ps, tokens "in" "abc\x7d" options.settings = .ok ts ∧
        phrases "in" "abc\x7d" options.settings = .ok ps ∧
        (tokenErrors ts).length = 1 ∧ (phraseErrors ps).length = 2 ∧
        ∃ n, ∀ fuel ≥ n, ∃ terms, termsOf fuel "in" "abc\x7d" options = .ok terms ∧
          termErrors terms = phraseErrors ps ∧
          (termErrors terms).filter Report.isLexical = tokenErrors ts := by
  intro options
  obtain ⟨ts, ps, hts, hps, ⟨n, hn⟩, herrors⟩ := (commands_agree options rfl).1 "in" "abc\x7d"
  have htokens : ((tokens "in" "abc\x7d" options.settings).toOption.map fun ts =>
      (tokenErrors ts).length) = some 1 := by decide +kernel
  have hphrases : ((tokens "in" "abc\x7d" options.settings >>= phrasesOf "in").toOption.map fun ps =>
      (phraseErrors ps).length) = some 2 := by decide +kernel
  rw [hts] at htokens
  rw [← phrases_eq_phrasesOf, hps] at hphrases
  refine ⟨rfl, ts, ps, hts, hps, Option.some.inj htokens, Option.some.inj hphrases, n,
    fun fuel hle => ?_⟩
  obtain ⟨terms, hterms⟩ := hn fuel hle
  obtain ⟨-, -, hreports, hlexical⟩ := herrors fuel terms hterms
  exact ⟨terms, hterms, hreports, hlexical⟩

end CommandLine

end TermStream
