import TermStream.Proofs.Pipeline.Runs

namespace TermStream

namespace Course

variable {answer : GrammarReference → Grammar} {start c d : Course} {progress : Progress}
  {n N : Nat}

/-- There are at most `N` moves from here on. -/
def Within (answer : GrammarReference → Grammar) (N : Nat) (c : Course) : Prop :=
  ∀ n d, c.Reaches answer n d → n ≤ N

theorem Within.of_end (h : c.Reaches answer N d) (hr : d.Rests .eof) : c.Within answer N :=
  fun _ _ hreaches => hreaches.le_of_end h hr

theorem Within.mono (h : c.Within answer n) (hle : n ≤ N) : c.Within answer N :=
  fun m d hd => Nat.le_trans (h m d hd) hle

theorem Within.reaches (h : c.Within answer N) (hr : c.Reaches answer n d) :
    d.Within answer N :=
  fun m e he => Nat.le_trans (Nat.le_add_left m n) (h (n + m) e (hr.trans he))

theorem Within.serve (h : c.Within answer N) (hr : c.Rests progress)
    (hs : c.serve answer progress = some d) : ∃ M, M < N ∧ d.Within answer M := by
  have hreaches : c.Reaches answer 1 d := (Reaches.refl answer c).serve hr hs
  have hpos := h 1 d hreaches
  refine ⟨N - 1, by omega, fun m e he => ?_⟩
  have hle := h (1 + m) e (hreaches.trans he)
  omega

end Course

namespace Pipeline

variable {source : String} {p p' : Pipeline} {more : List Char} {ready : Bool} {terms : List Term}
  {resolver : Resolver}

theorem exists_takePhrase (h : p.Ready source more) (hc : p.phrase = none) :
    ∃ ready p', p.takePhrase = .ok (ready, p') := by
  obtain ⟨progress, g, token, hok, hparsed⟩ := Grouper.parse_parsed p.token h.grouper
  simp only [takePhrase, hok, bind, Except.bind]
  cases hparsed with
  | pending q hp => simp [Grouper.read, hp, hc, Cell.put, pure, Except.pure]
  | ended hp he => simp [Grouper.read, hp, he, hc, Cell.put, pure, Except.pure]
  | starved hp he hi => simp [pure, Except.pure]
  | phrase t hp he hi r hr => simp [Grouper.read, hc, Cell.put, pure, Except.pure]

theorem exists_fillToken (h : p.Ready source more) (ht : p.token = none) :
    ∃ ready p', p.fillToken = .ok (ready, p') := by
  obtain ⟨progress, l, b, hok, hparsed⟩ := Lexer.parse_parsed p.backlog p.final h.lexer
  simp only [fillToken, hok, bind, Except.bind]
  by_cases hprogress : progress = .outputAvailable
  · subst hprogress
    obtain ⟨t, hr⟩ := hparsed.exists_read
    simp [hr, ht, Cell.put, pure, Except.pure]
  · rw [if_pos hprogress]
    exact ⟨_, _, rfl⟩

theorem exists_fillPhrase (h : p.Ready source more) (hc : p.phrase = none) :
    ∃ ready p', p.fillPhrase = .ok (ready, p') := by
  obtain ⟨taken, p₁, hp⟩ := exists_takePhrase h hc
  simp only [fillPhrase, hp, bind, Except.bind]
  cases taken with
  | true => exact ⟨_, _, rfl⟩
  | false =>
    obtain ⟨rfl, ht, -⟩ := takePhrase_false h hp
    obtain ⟨filled, p₂, hq⟩ := exists_fillToken h ht
    obtain ⟨hh, hphrase⟩ := fillToken_hands h hq
    simp only [hq, Bool.false_eq_true, if_false]
    cases filled with
    | true => exact exists_takePhrase hh.ready (hphrase.trans hc)
    | false => exact ⟨_, _, rfl⟩

theorem exists_read {answer : GrammarReference → Grammar} (hready : p.Ready source more)
    (hs : (Reading.course ⟨p, terms⟩ more).Sound)
    (hr : (Reading.course ⟨p, terms⟩ more).Rests .outputAvailable) :
    ∃ t p', p.read = .ok (t, p') ∧ p'.Ready source more ∧ p'.final = p.final ∧
      (Reading.course ⟨p, terms⟩ more).serve answer .outputAvailable =
        some (Reading.course ⟨p', terms ++ [t]⟩ more) := by
  obtain ⟨d, hd⟩ := hr.exists_serve answer hs nofun
  cases Course.serve_serves hd with
  | read t i hread =>
    have hread : p.interpreter.read = .ok (t, i) := hread
    exact ⟨t, { p with interpreter := i }, by rw [read, hread]; rfl,
      ⟨hready.source_eq, hready.lexer, hready.grouper, hready.complete⟩, rfl, hd⟩

theorem exists_resolve (resolver : Resolver) (hready : p.Ready source more)
    (hs : (Reading.course ⟨p, terms⟩ more).Sound)
    (hr : (Reading.course ⟨p, terms⟩ more).Rests .resourceNeeded) :
    ∃ p', p.resolveWith resolver = .ok p' ∧ p'.Ready source more ∧ p'.final = p.final ∧
      (Reading.course ⟨p, terms⟩ more).serve (answer source resolver) .resourceNeeded =
        some (Reading.course ⟨p', terms⟩ more) := by
  obtain ⟨r, hrequest⟩ := hs.asking.exists_request hr
  have hgrammar : p.interpreter.workspace.grammar = none :=
    (Interpreter.request?_eq_some.1 hrequest).1
  have hrequest : p.interpreter.request? = some r := hrequest
  refine ⟨{ p with interpreter := { p.interpreter with workspace :=
    { p.interpreter.workspace with grammar := some (answer source resolver r) } } },
    ?_, ⟨hready.source_eq, hready.lexer, hready.grouper, hready.complete⟩, rfl, ?_⟩
  · simp only [resolveWith, request?, hrequest, provideGrammar, Interpreter.provideGrammar, hgrammar,
      hready.source_eq]
    rfl
  · simp only [Reading.course, Course.serve, hrequest, Interpreter.provideGrammar, hgrammar]
    rfl

namespace Reading.Follows

variable {start : Course} {N : Nat}

/-- With enough steps a call ends, for what is needed. -/
theorem exists_parse {fuel : Nat} (h : Follows resolver source start ⟨p, terms⟩ more)
    (hw : (Reading.course ⟨p, terms⟩ more).Within (answer source resolver) N) (hf : N < fuel) :
    ∃ progress t cell, p.interpreter.parse fuel p.phrase = (.ok progress, t, cell) ∧
      let r : Reading := ⟨{ p with interpreter := t, phrase := cell }, terms⟩
      r.Follows resolver source start more ∧
        (r.course more).Within (answer source resolver) N ∧ (r.course more).Rests progress := by
  have hworks : Course.Works (answer source resolver) (Reading.course ⟨p, terms⟩ more) 0 fuel
      (p.interpreter.parse fuel p.phrase).1
      (Reading.course ⟨{ p with
        interpreter := (p.interpreter.parse fuel p.phrase).2.1
        phrase := (p.interpreter.parse fuel p.phrase).2.2 }, terms⟩ more) :=
    Course.parse_works fuel h.sound (.refl _ _)
  obtain ⟨hfollows, -⟩ := h.parse_interpreter fuel
  generalize p.interpreter.parse fuel p.phrase = result at hfollows hworks ⊢
  obtain ⟨outcome, t, cell⟩ := result
  cases hworks with
  | unfinished m hle hreaches hd =>
    have hm := hw m _ hreaches
    omega
  | ended m hle hreaches hd hp => exact ⟨_, t, cell, rfl, hfollows, hw.reaches hreaches, hp⟩

theorem exists_work {fuel rounds : Nat} (hb : ∀ r g, resolver r = some g → g.Built)
    (h : Follows resolver source start ⟨p, terms⟩ more)
    (hw : (Reading.course ⟨p, terms⟩ more).Within (answer source resolver) N) (hf : N < fuel)
    (hr : N < rounds) :
    ∃ progress p', Pipeline.work fuel rounds p = (.ok progress, p') ∧
      (Reading.course ⟨p', terms⟩ more).Within (answer source resolver) N ∧
      (progress ≠ .inputNeeded → (Reading.course ⟨p', terms⟩ more).Rests progress) := by
  induction rounds generalizing p N with
  | zero => exact absurd hr (Nat.not_lt_zero _)
  | succ rounds ih =>
    obtain ⟨progress, t, cell, hparse, hf₁, hw₁, hp⟩ := h.exists_parse hw hf
    generalize hp₁ : { p with interpreter := t, phrase := cell } = p₁ at hf₁ hw₁ hp
    rw [Pipeline.work, hparse]
    dsimp only
    rw [hp₁]
    by_cases hprogress : progress = .inputNeeded
    · subst hprogress
      obtain ⟨hcell, hcoming⟩ := hp.exists_phrase hf₁.sound
      obtain ⟨ready, p₂, hfill⟩ := exists_fillPhrase hf₁.ready hcell
      obtain ⟨-, hcourse⟩ :=
        fillPhrase_course (answer source resolver) terms hf₁.ready hcell hcoming hfill
      have hfollows := hf₁.fillPhrase hb hp hfill
      simp only [hfill]
      cases ready with
      | true =>
        obtain ⟨M, hM, hw₂⟩ := hw₁.serve hp (by simpa using hcourse)
        obtain ⟨progress, p₃, hwork, hw₃, hrests⟩ := ih hfollows hw₂ (by omega) (by omega)
        exact ⟨progress, p₃, hwork, hw₃.mono (Nat.le_of_lt hM), hrests⟩
      | false =>
        have hsame : Reading.course ⟨p₂, terms⟩ more = Reading.course ⟨p₁, terms⟩ more := by
          simpa using hcourse
        exact ⟨.inputNeeded, p₂, rfl, hsame ▸ hw₁, fun hne => absurd rfl hne⟩
    · refine ⟨progress, p₁, ?_, hw₁, fun _ => hp⟩
      cases progress with
      | inputNeeded => exact absurd rfl hprogress
      | _ => rfl

theorem exists_runPieces {fuel rounds : Nat} {pieces : List (List Char)} {done : Transcript}
    (hb : ∀ r g, resolver r = some g → g.Built)
    (h : Follows resolver source start ⟨p, done.terms.toList⟩ pieces.flatten)
    (hw : (Reading.course ⟨p, done.terms.toList⟩ pieces.flatten).Within (answer source resolver) N)
    (hf : N < fuel) (hr : N + pieces.length + (if p.final then 0 else 1) < rounds) :
    ∃ transcript, Pipeline.runPieces fuel resolver rounds p pieces done = .ok transcript := by
  -- each round makes a move or takes a piece, or learns that the text is complete
  induction rounds generalizing p pieces done N with
  | zero => exact absurd hr (Nat.not_lt_zero _)
  | succ rounds ih =>
    obtain ⟨hfollows, -⟩ := h.work fuel fuel hb
    obtain ⟨hfinal, hcomplete⟩ := h.work_complete fuel fuel hb
    obtain ⟨progress, p₁, hwork, hw₁, hrests⟩ := h.exists_work hb hw hf hf
    rw [Pipeline.runPieces, Pipeline.parse, hwork]
    rw [hwork] at hfollows hfinal hcomplete
    dsimp only at hfollows hfinal hcomplete
    rw [← hfinal] at hr
    cases progress with
    | outputAvailable =>
      have hp := hrests (by decide)
      obtain ⟨t, p₂, hread, hready, hfinal₂, hserve⟩ :=
        exists_read (p := p₁) hfollows.ready hfollows.sound hp
      rw [← Array.toList_push] at hserve
      obtain ⟨M, hM, hw₂⟩ := hw₁.serve hp hserve
      simp only [hread, Halt.ofMisuse, bind, Except.bind]
      refine ih (hfollows.serve hb .outputAvailable hp hready hserve) hw₂ (by omega) ?_
      rw [hfinal₂]
      omega
    | resourceNeeded =>
      have hp := hrests (by decide)
      obtain ⟨p₂, hresolve, hready, hfinal₂, hserve⟩ :=
        exists_resolve (p := p₁) resolver hfollows.ready hfollows.sound hp
      obtain ⟨M, hM, hw₂⟩ := hw₁.serve hp hserve
      simp only [hresolve, Halt.ofMisuse, bind, Except.bind]
      refine ih (hfollows.serve hb .resourceNeeded hp hready hserve) hw₂ (by omega) ?_
      rw [hfinal₂]
      omega
    | inputNeeded =>
      cases pieces with
      | cons piece pieces =>
        rw [List.length_cons] at hr
        rw [List.flatten_cons, ← course_push] at hw₁
        exact ih (p := p₁.push piece) hfollows.push hw₁ hf
          (by change N + pieces.length + (if p₁.final then 0 else 1) < rounds; omega)
      | nil =>
        cases htext : p₁.final with
        | true => exact absurd rfl (hcomplete (hfinal.symm.trans htext))
        | false =>
          rw [htext, if_neg Bool.false_ne_true] at hr
          simp only [htext, Bool.false_eq_true, if_false]
          exact ih (p := p₁.finish) hfollows.finish hw₁ hf
            (by change N + 0 + 0 < rounds; omega)
    | eof => exact ⟨done, rfl⟩

end Reading.Follows

/-- Where the course that a pipeline follows has an end, every run with enough steps comes to it,
and no run to another one. -/
theorem run_ends {text : String} {settings : Settings} {grammar : Option Grammar}
    {start d : Course} {N : Nat} (hb : ∀ r g, resolver r = some g → g.Built)
    (hp : openPipeline source settings grammar = .ok p)
    (hf : Reading.Follows resolver source start ⟨p, []⟩ text.toList)
    (hd : start.Reaches (answer source resolver) N d) (hr : d.Rests .eof) :
    (∃ n, ∀ fuel ≥ n, ∃ transcript,
      run fuel source text settings grammar resolver = .ok transcript) ∧
      ∀ fuel transcript, run fuel source text settings grammar resolver = .ok transcript →
        transcript.terms.toList = d.terms := by
  rw [← Text.pieces_flatten settings.chunkSize text.toList] at hf
  generalize hpieces : Text.pieces settings.chunkSize text.toList = pieces at hf
  have hstart : Reading.Follows resolver source start
      ⟨p, (Transcript.mk #[] []).terms.toList⟩ pieces.flatten := hf
  refine ⟨?_, fun fuel transcript hrun => ?_⟩
  · obtain ⟨m, hm⟩ := hf.reached
    have hw := (Course.Within.of_end hd hr).reaches hm
    refine ⟨N + pieces.length + 2, fun fuel hle => ?_⟩
    rw [run_eq hp, hpieces]
    exact hstart.exists_runPieces hb hw (by omega) (by split <;> omega)
  · rw [run_eq hp, hpieces] at hrun
    obtain ⟨n, e, he, -, hre, hterms⟩ := hstart.runPieces hb hrun
    rw [← hterms, he.end_unique hre hd hr]

end Pipeline

end TermStream
