import TermStream.Pipeline
import TermStream.Proofs.Phrase.Tiling
import TermStream.Proofs.Pipeline.Course

namespace TermStream.Pipeline

inductive Call where
  | push (text : List Char)
  | finish
  | parse (fuel : Nat)
  | read
  | resolve

structure Reading where
  pipeline : Pipeline
  terms : List Term

namespace Reading

def perform (resolver : Resolver) (r : Reading) : Call → Reading
  | .push text => { r with pipeline := r.pipeline.push text }
  | .finish => { r with pipeline := r.pipeline.finish }
  | .parse fuel => { r with pipeline := (r.pipeline.parse fuel).2 }
  | .read =>
    match r.pipeline.read with
    | .ok (t, p) => ⟨p, r.terms ++ [t]⟩
    | .error _ => r
  | .resolve =>
    match r.pipeline.resolveWith resolver with
    | .ok p => { r with pipeline := p }
    | .error _ => r

def performAll (resolver : Resolver) (r : Reading) (calls : List Call) : Reading :=
  calls.foldl (perform resolver) r

end Reading

/-- The calls push parts of the text one after the other, and none before the last part says that
the text is complete. -/
def Schedule : List Char → List Call → Prop
  | _, [] => True
  | text, .push chunk :: calls => ∃ rest, text = chunk ++ rest ∧ Schedule rest calls
  | text, .finish :: calls => text = [] ∧ Schedule text calls
  | text, .parse _ :: calls | text, .read :: calls | text, .resolve :: calls => Schedule text calls

/-- The grammar that a document is given which asks for one. -/
def answer (source : String) (resolver : Resolver) (r : GrammarReference) : Grammar :=
  (resolver r).getD (substitute source r)

theorem answer_of {P : Grammar → Prop} {source : String} {resolver : Resolver}
    (hs : ∀ r, P (substitute source r)) (h : ∀ r g, resolver r = some g → P g)
    (r : GrammarReference) : P (answer source resolver r) := by
  unfold answer
  cases hg : resolver r with
  | some g => exact h r g hg
  | none => exact hs r

theorem substitute_built (source : String) (r : GrammarReference) : (substitute source r).Built :=
  (Grammar.built_standard false).withLoadErrors _

theorem answer_built {source : String} {resolver : Resolver}
    (h : ∀ r g, resolver r = some g → g.Built) (r : GrammarReference) :
    (answer source resolver r).Built :=
  answer_of (P := Grammar.Built) (substitute_built source) h r

theorem standard_eq {r : GrammarReference} {g : Grammar} (h : Resolver.standard r = some g) :
    g = Grammar.standard false := by
  unfold Resolver.standard at h
  split at h
  · exact (Option.some.inj h).symm
  · cases h

theorem standard_built (r : GrammarReference) (g : Grammar) (h : Resolver.standard r = some g) :
    g.Built :=
  standard_eq h ▸ Grammar.built_standard false

def coming (p : Pipeline) (more : List Char) : List Phrase :=
  p.grouper.ahead (p.token.toList ++ p.lexer.ahead (p.backlog.rest ++ more))

/-- The layers have been started, and the text is not said to be complete before it is. -/
structure Ready (source : String) (p : Pipeline) (more : List Char) : Prop where
  source_eq : p.source = source
  lexer : p.lexer.source = some source
  grouper : p.grouper.source = some source
  complete : p.final = true → more = []

/-- What handing on tokens and phrases leaves as it is: the interpreter, and the phrases that it has
not taken. -/
structure Hands (source : String) (p p' : Pipeline) (more : List Char) : Prop where
  ready : p'.Ready source more
  interpreter_eq : p'.interpreter = p.interpreter
  left_eq : p'.phrase.toList ++ p'.coming more = p.phrase.toList ++ p.coming more

variable {source : String} {p p' p₁ : Pipeline} {more : List Char} {ready : Bool}

theorem Hands.trans (h : Hands source p p₁ more) (h' : Hands source p₁ p' more) :
    Hands source p p' more :=
  ⟨h'.ready, h'.interpreter_eq.trans h.interpreter_eq, h'.left_eq.trans h.left_eq⟩

theorem fillToken_hands (h : p.Ready source more) (hf : p.fillToken = .ok (ready, p')) :
    Hands source p p' more ∧ p'.phrase = p.phrase := by
  obtain ⟨progress, l, b, hok, hparsed⟩ := Lexer.parse_parsed p.backlog p.final h.lexer
  have hahead := hparsed.ahead_eq h.lexer h.complete
  have hs : l.source = some source := hparsed.source_eq.trans h.lexer
  simp only [fillToken, hok, bind, Except.bind] at hf
  by_cases hprogress : progress = .outputAvailable
  · subst hprogress
    obtain ⟨t, hr⟩ := hparsed.exists_read
    simp only [ne_eq, not_true_eq_false, if_false, hr] at hf
    cases ht : p.token with
    | some t' => simp [ht, Cell.put] at hf
    | none =>
      simp only [ht, Cell.put] at hf
      cases hf
      refine ⟨⟨⟨h.source_eq, hs, h.grouper, h.complete⟩, rfl, ?_⟩, rfl⟩
      unfold coming
      rw [ht, ← hahead, Lexer.ahead_read _ hr]
      rfl
  · rw [if_pos hprogress] at hf
    cases hf
    refine ⟨⟨⟨h.source_eq, hs, h.grouper, h.complete⟩, rfl, ?_⟩, rfl⟩
    unfold coming
    rw [hahead]

theorem takePhrase_hands (h : p.Ready source more) (hn : p.coming more ≠ [])
    (hf : p.takePhrase = .ok (ready, p')) :
    Hands source p p' more ∧ (ready = true → p'.phrase.isSome = true) ∧
      (ready = false → p'.phrase = p.phrase) := by
  obtain ⟨progress, g, token, hok, hparsed⟩ := Grouper.parse_parsed p.token h.grouper
  have hahead := hparsed.ahead_eq h.grouper (p.lexer.ahead (p.backlog.rest ++ more))
  have hs : g.source = some source := hparsed.source_eq.trans h.grouper
  simp only [takePhrase, hok, bind, Except.bind] at hf
  cases progress with
  | outputAvailable =>
    obtain ⟨ph, hp, hr⟩ := hparsed.exists_read
    simp only [reduceCtorEq, or_self, if_false, hr] at hf
    cases hc : p.phrase with
    | some q => simp [hc, Cell.put] at hf
    | none =>
      simp only [hc, Cell.put] at hf
      cases hf
      refine ⟨⟨⟨h.source_eq, h.lexer, hs, h.complete⟩, rfl, ?_⟩, fun _ => rfl, by simp⟩
      unfold coming
      rw [hc, ← hahead, Grouper.ahead_eq_append g, hp]
      rfl
  | inputNeeded =>
    simp only [true_or, if_true] at hf
    cases hf
    refine ⟨⟨⟨h.source_eq, h.lexer, hs, h.complete⟩, rfl, ?_⟩, by simp, fun _ => rfl⟩
    unfold coming
    rw [hahead]
  | resourceNeeded => cases hparsed
  | eof =>
    cases hparsed with
    | ended hp he =>
      refine absurd ?_ hn
      unfold coming Grouper.ahead
      rw [hp, he, Grouped.phrasesFrom_afterEof]
      rfl

theorem Hands.coming_ne_nil (h : Hands source p p' more) (hp : p'.phrase = p.phrase)
    (hn : p.coming more ≠ []) : p'.coming more ≠ [] := by
  have hl := h.left_eq
  rw [hp] at hl
  rwa [List.append_cancel_left hl]

theorem fillPhrase_hands (h : p.Ready source more) (hn : p.coming more ≠ [])
    (hf : p.fillPhrase = .ok (ready, p')) :
    Hands source p p' more ∧ (ready = true → p'.phrase.isSome = true) ∧
      (ready = false → p'.phrase = p.phrase) := by
  unfold fillPhrase at hf
  cases hp : p.takePhrase with
  | error m => simp [hp, bind, Except.bind] at hf
  | ok found =>
    obtain ⟨taken, p₁⟩ := found
    obtain ⟨hh, ht, hk⟩ := takePhrase_hands h hn hp
    simp only [hp, bind, Except.bind] at hf
    cases taken with
    | true =>
      simp only [if_true] at hf
      cases hf
      exact ⟨hh, ht, hk⟩
    | false =>
      have hn₁ := hh.coming_ne_nil (hk rfl) hn
      simp only [Bool.false_eq_true, if_false] at hf
      cases hq : p₁.fillToken with
      | error m => simp [hq] at hf
      | ok found =>
        obtain ⟨filled, p₂⟩ := found
        obtain ⟨hh', hk'⟩ := fillToken_hands hh.ready hq
        simp only [hq] at hf
        cases filled with
        | true =>
          obtain ⟨hh'', ht'', hk''⟩ := takePhrase_hands hh'.ready (hh'.coming_ne_nil hk' hn₁) hf
          exact ⟨(hh.trans hh').trans hh'', ht'',
            fun he => ((hk'' he).trans hk').trans (hk rfl)⟩
        | false =>
          cases hf
          exact ⟨hh.trans hh', nofun, fun _ => hk'.trans (hk rfl)⟩

def Reading.course (r : Reading) (more : List Char) : Course :=
  ⟨r.pipeline.interpreter, r.pipeline.phrase, r.pipeline.coming more, r.terms⟩

theorem Reading.course_push (p : Pipeline) (chunk rest : List Char) (terms : List Term) :
    Reading.course ⟨p.push chunk, terms⟩ rest = Reading.course ⟨p, terms⟩ (chunk ++ rest) := by
  simp [course, Pipeline.push, coming]

/-- Filling the cell is what is done when a phrase is needed. If nothing has come, what is still to
come is the same. -/
theorem fillPhrase_course (answer : GrammarReference → Grammar) (terms : List Term)
    (h : p.Ready source more) (hcell : p.phrase = none) (hcoming : p.coming more ≠ [])
    (hf : p.fillPhrase = .ok (ready, p')) :
    let c := Reading.course ⟨p, terms⟩ more
    let c' := Reading.course ⟨p', terms⟩ more
    p'.Ready source more ∧ if ready then c.serve answer .inputNeeded = some c' else c' = c := by
  obtain ⟨hh, ht, hk⟩ := fillPhrase_hands h hcoming hf
  have hleft := hh.left_eq
  rw [hcell] at hleft
  refine ⟨hh.ready, ?_⟩
  cases ready with
  | false =>
    rw [hk rfl, hcell] at hleft
    simp only [Bool.false_eq_true, if_false, Reading.course, hh.interpreter_eq, hk rfl]
    exact congrArg (Course.mk _ _ · _) hleft
  | true =>
    obtain ⟨ph, hp⟩ := Option.isSome_iff_exists.1 (ht rfl)
    rw [hp] at hleft
    have hcoming : p.coming more = ph :: p'.coming more := hleft.symm
    simp only [if_true, Reading.course, Course.serve, hcoming, hcell, Cell.put, hp,
      hh.interpreter_eq]

/-- The interpreter is on the course that `start` begins. -/
structure Reading.Follows (resolver : Resolver) (source : String) (start : Course) (r : Reading)
    (more : List Char) : Prop where
  ready : r.pipeline.Ready source more
  sound : (r.course more).Sound
  reached : ∃ n, start.Reaches (answer source resolver) n (r.course more)

namespace Reading.Follows

variable {resolver : Resolver} {start : Course} {r r' : Reading} {more' : List Char}
  {terms : List Term} {progress : Progress} {c : Course}

theorem of_course_eq (h : r.Follows resolver source start more)
    (hr : r'.pipeline.Ready source more') (hc : r'.course more' = r.course more) :
    r'.Follows resolver source start more' :=
  ⟨hr, hc ▸ h.sound, hc ▸ h.reached⟩

theorem serve (hb : ∀ r g, resolver r = some g → g.Built) (progress : Progress)
    (h : r.Follows resolver source start more)
    (hr : (r.course more).Rests progress) (hready : r'.pipeline.Ready source more')
    (hs : (r.course more).serve (answer source resolver) progress = some (r'.course more')) :
    r'.Follows resolver source start more' := by
  obtain ⟨n, hn⟩ := h.reached
  exact ⟨hready, h.sound.serve (answer_built hb) hs, n + 1, hn.serve hr hs⟩

theorem parse_interpreter (fuel : Nat) (h : Follows resolver source start ⟨p, terms⟩ more) :
    let result := p.interpreter.parse fuel p.phrase
    let r : Reading := ⟨{ p with interpreter := result.2.1, phrase := result.2.2 }, terms⟩
    r.Follows resolver source start more ∧
      ∀ progress, result.1 = .ok progress → (r.course more).Rests progress := by
  obtain ⟨n, hn⟩ := h.reached
  have hw := Course.parse_works fuel h.sound hn
  have hready : Ready source p more := h.ready
  intro result r
  change start.Works _ n fuel result.1 (r.course more) at hw
  have hready' : r.pipeline.Ready source more :=
    ⟨hready.source_eq, hready.lexer, hready.grouper, hready.complete⟩
  generalize result.1 = outcome at hw ⊢
  cases hw with
  | ended m hle hr hd hp => exact ⟨⟨hready', hd, m, hr⟩, fun progress he => by cases he; exact hp⟩
  | unfinished m hle hr hd => exact ⟨⟨hready', hd, m, hr⟩, nofun⟩

theorem fillPhrase (hb : ∀ r g, resolver r = some g → g.Built)
    (h : Follows resolver source start ⟨p, terms⟩ more)
    (hr : (Reading.course ⟨p, terms⟩ more).Rests .inputNeeded)
    (hf : p.fillPhrase = .ok (ready, p')) : Follows resolver source start ⟨p', terms⟩ more := by
  obtain ⟨hcell, hcoming⟩ := hr.exists_phrase h.sound
  obtain ⟨hready, hcourse⟩ :=
    fillPhrase_course (answer source resolver) terms h.ready hcell hcoming hf
  cases ready with
  | false => exact h.of_course_eq hready (by simpa using hcourse)
  | true => exact h.serve hb .inputNeeded hr hready (by simpa using hcourse)

theorem work (fuel rounds : Nat) (hb : ∀ r g, resolver r = some g → g.Built)
    (h : Follows resolver source start ⟨p, terms⟩ more) :
    let r : Reading := ⟨(Pipeline.work fuel rounds p).2, terms⟩
    r.Follows resolver source start more ∧
      ((Pipeline.work fuel rounds p).1 = .ok .eof → (r.course more).Rests .eof) := by
  induction rounds generalizing p with
  | zero => exact ⟨h, nofun⟩
  | succ rounds ih =>
    obtain ⟨hf, hrests⟩ := h.parse_interpreter fuel
    unfold Pipeline.work
    generalize p.interpreter.parse fuel p.phrase = result at hf hrests ⊢
    obtain ⟨outcome, t, cell⟩ := result
    cases outcome with
    | error e => exact ⟨hf, nofun⟩
    | ok progress =>
      cases progress with
      | inputNeeded =>
        dsimp only
        split
        · exact ⟨hf, nofun⟩
        · next p₁ hfill => exact ih (hf.fillPhrase hb (hrests _ rfl) hfill)
        · next p₁ hfill => exact ⟨hf.fillPhrase hb (hrests _ rfl) hfill, nofun⟩
      | outputAvailable => exact ⟨hf, nofun⟩
      | resourceNeeded => exact ⟨hf, nofun⟩
      | eof => exact ⟨hf, fun _ => hrests _ rfl⟩

theorem push {chunk rest : List Char} (h : r.Follows resolver source start (chunk ++ rest)) :
    (r.perform resolver (.push chunk)).Follows resolver source start rest := by
  have hready := h.ready
  refine h.of_course_eq ⟨hready.source_eq, hready.lexer, hready.grouper, fun hf => ?_⟩ ?_
  · exact (List.append_eq_nil_iff.1 (hready.complete hf)).2
  · exact course_push r.pipeline chunk rest r.terms

theorem finish (h : r.Follows resolver source start []) :
    (r.perform resolver .finish).Follows resolver source start [] :=
  h.of_course_eq ⟨h.ready.source_eq, h.ready.lexer, h.ready.grouper, fun _ => rfl⟩ rfl

theorem read (hb : ∀ r g, resolver r = some g → g.Built)
    (h : r.Follows resolver source start more) :
    (r.perform resolver .read).Follows resolver source start more := by
  have hready := h.ready
  unfold perform Pipeline.read
  cases hr : r.pipeline.interpreter.read with
  | error m => exact h
  | ok found =>
    obtain ⟨t, i⟩ := found
    refine h.serve hb .outputAvailable ?_
      ⟨hready.source_eq, hready.lexer, hready.grouper, hready.complete⟩ ?_
    · change r.pipeline.interpreter.step _ = _
      rw [Interpreter.step, if_pos (Interpreter.hasOutput_of_read hr)]
      rfl
    · simp only [course, Course.serve, hr]
      rfl

theorem resolve (hb : ∀ r g, resolver r = some g → g.Built)
    (h : r.Follows resolver source start more) :
    (r.perform resolver .resolve).Follows resolver source start more := by
  have hready := h.ready
  unfold perform Pipeline.resolveWith
  cases hr : r.pipeline.request? with
  | none => exact h
  | some reference =>
    have hsource : (resolver reference).getD (substitute r.pipeline.source reference) =
        answer source resolver reference := by
      rw [hready.source_eq]
      rfl
    dsimp only
    rw [hsource]
    unfold Pipeline.provideGrammar
    cases hp : r.pipeline.interpreter.provideGrammar (answer source resolver reference) with
    | error m => exact h
    | ok t =>
      refine h.serve hb .resourceNeeded (h.sound.asking.step_eq hr _)
        ⟨hready.source_eq, hready.lexer, hready.grouper, hready.complete⟩ ?_
      have hr : r.pipeline.interpreter.request? = some reference := hr
      simp only [course, Course.serve, hr, hp]
      rfl

theorem performAll {calls : List Call} (hb : ∀ r g, resolver r = some g → g.Built)
    (h : r.Follows resolver source start more) (hc : Schedule more calls) :
    ∃ rest, (r.performAll resolver calls).Follows resolver source start rest := by
  induction calls generalizing r more with
  | nil => exact ⟨more, h⟩
  | cons call calls ih =>
    cases call with
    | push chunk =>
      obtain ⟨rest, rfl, hs⟩ := hc
      exact ih h.push hs
    | finish =>
      obtain ⟨rfl, hs⟩ := hc
      exact ih h.finish hs
    | parse fuel => exact ih (h.work (p := r.pipeline) fuel fuel hb).1 hc
    | read => exact ih (h.read hb) hc
    | resolve => exact ih (h.resolve hb) hc

end Reading.Follows

def openInterpreter (source : String) (grammar : Option Grammar) : Except Misuse Interpreter := do
  let t ← Interpreter.new.start source
  match grammar with
  | some g => t.forceGrammar g
  | none => return t

def openPipeline (source : String) (settings : Settings) (grammar : Option Grammar) :
    Except Misuse Pipeline := do
  let p ← new source settings
  match grammar with
  | some g => p.forceGrammar g
  | none => return p

theorem openInterpreter_sound (source : String) {grammar : Option Grammar}
    (h : ∀ g, grammar = some g → g.Built) :
    ∃ t, openInterpreter source grammar = .ok t ∧ t.Sound ∧ t.started = true ∧
      t.finished = false ∧ t.Asking ∧ t.stack ≠ [] := by
  let t : Interpreter :=
    { Interpreter.new with
      started := true
      workspace := { Workspace.new with source := source }
      stack := [⟨.document .new, .none⟩] }
  have hstart : Interpreter.new.start source = .ok t := rfl
  have hsound : t.Sound := Interpreter.new_sound.start rfl hstart
  have hasked : ∀ ws, ∀ a ∈ t.stack.head?, a.frame.Asked ws := by
    intro ws a ha
    cases ha
    exact ⟨nofun, nofun⟩
  cases grammar with
  | none => exact ⟨t, rfl, hsound, rfl, rfl, ⟨fun _ => nofun, hasked _⟩, nofun⟩
  | some g =>
    exact ⟨_, rfl, hsound.forceGrammar (h g rfl) rfl, rfl, rfl, ⟨fun _ => nofun, hasked _⟩, nofun⟩

theorem exists_openCourse (source : String) {grammar : Option Grammar} {ps : List Phrase}
    (hg : ∀ g, grammar = some g → g.Built) (hends : EndsOnce Phrase.isEof ps) :
    ∃ t, openInterpreter source grammar = .ok t ∧ Course.Sound ⟨t, none, ps, []⟩ := by
  obtain ⟨t, ht, hsound, hstarted, hfinished, hasking, hstack⟩ := openInterpreter_sound source hg
  exact ⟨t, ht, hsound, hstarted, fun hf => absurd (hfinished.symm.trans hf) nofun, hasking,
    fun _ => hends, fun hn => absurd hn hstack⟩

/-- The phrases of the whole source are a course, and a pipeline is on it from the beginning. -/
theorem exists_open (source text : String) (settings : Settings) {grammar : Option Grammar}
    (resolver : Resolver) (h : ∀ g, grammar = some g → g.Built) :
    ∃ t p ts ps, openInterpreter source grammar = .ok t ∧
      openPipeline source settings grammar = .ok p ∧
      tokens source text settings = .ok ts ∧ phrasesOf source ts = .ok ps ∧
      Course.Sound ⟨t, none, ps, []⟩ ∧
      Reading.Follows resolver source ⟨t, none, ps, []⟩ ⟨p, []⟩ text.toList ∧
      ts.flatMap (fun k => k.text.toList) = text.toList ∧ Grouped.Tiling ts ps := by
  let l : Lexer := { Lexer.new settings with source := some source, position := .start }
  let g : Grouper := { Grouper.new with source := some source }
  have htokens : tokens source text settings = .ok (l.ahead text.toList) :=
    tokens_eq_ahead source text settings
  obtain ⟨htext, hends⟩ := Lexer.ahead_tiles (l := l) text.toList rfl rfl rfl
  have htiling := Grouped.phrasesFrom_tiling source .statementSequence [] _ hends nofun nofun
  obtain ⟨t, ht, hcourse⟩ := exists_openCourse source h htiling.endsOnce
  have hopen : openPipeline source settings grammar =
      .ok ⟨source, .empty, false, l, g, t, none, none⟩ := by
    cases grammar <;> cases ht <;> rfl
  exact ⟨t, _, _, _, ht, hopen, htokens, phrasesOf_eq source _, hcourse,
    ⟨⟨rfl, rfl, rfl, nofun⟩, hcourse, 0, .refl _ _⟩, htext, htiling⟩

end TermStream.Pipeline
