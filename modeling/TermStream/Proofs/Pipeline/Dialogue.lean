import TermStream.Proofs.Interpreter.Handshake
import TermStream.Proofs.Interpreter.Sessions
import TermStream.Proofs.Pipeline.Readings
import TermStream.Proofs.Pipeline.Supply

namespace TermStream.Pipeline

structure Dialogue where
  pipeline : Pipeline
  /-- The terms that have been read. -/
  terms : List Term
  /-- The grammars that have been asked for. -/
  requests : List GrammarReference
  /-- The grammars that have been accepted, and whether they were forced. -/
  given : List (Grammar × Bool)

namespace Dialogue

/-- What may be done in a dialogue. A call to work may end after any step. -/
inductive Call where
  | push (text : List Char)
  | finish
  | parse (fuel : Nat)
  | read
  | force (g : Grammar)
  | provide (g : Grammar)
  | resolve (resolver : Resolver)

def Call.Gives (P : Grammar → Prop) : Call → Prop
  | .force g | .provide g => P g
  | .resolve resolver => ∀ r g, resolver r = some g → P g
  | _ => True

def accept (d : Dialogue) (given : List (Grammar × Bool)) : Except Misuse Pipeline → Dialogue
  | .ok p => { d with pipeline := p, given := d.given ++ given }
  | .error _ => d

def answers (p : Pipeline) (resolver : Resolver) : List (Grammar × Bool) :=
  (p.request?.map fun r => (answer p.source resolver r, false)).toList

def act (d : Dialogue) : Call → Dialogue
  | .push text => { d with pipeline := d.pipeline.push text }
  | .finish => { d with pipeline := d.pipeline.finish }
  | .parse fuel => { d with pipeline := (d.pipeline.parse fuel).2 }
  | .read =>
    match d.pipeline.read with
    | .ok (t, p) => { d with pipeline := p, terms := d.terms ++ [t] }
    | .error _ => d
  | .force g => d.accept [(g, true)] (d.pipeline.forceGrammar g)
  | .provide g => d.accept [(g, false)] (d.pipeline.provideGrammar g)
  | .resolve resolver => d.accept (answers d.pipeline resolver) (d.pipeline.resolveWith resolver)

def newRequests (p p' : Pipeline) : List GrammarReference :=
  if p'.request? = p.request? then [] else p'.request?.toList

def recording (d d' : Dialogue) : Dialogue :=
  { d' with requests := d.requests ++ newRequests d.pipeline d'.pipeline }

def perform (d : Dialogue) (call : Call) : Dialogue := d.recording (d.act call)

def performAll (d : Dialogue) (calls : List Call) : Dialogue := calls.foldl perform d

def start (p : Pipeline) : Dialogue := ⟨p, [], [], []⟩

end Dialogue

structure Holds (p : Pipeline) (read : List Term) : Prop where
  handshake : p.interpreter.Handshake read
  supplied : p.Supplied
  read : ∀ t ∈ read, ∀ q ∈ t.phrase, q.Quoted
  wrapped : ∀ q ∈ p.interpreter.workspace.wrapped, q.Quoted

variable {p p' : Pipeline} {read : List Term} {ready : Bool}

theorem Holds.quoted {t : Term} {q : Phrase} (h : p.Holds read)
    (ht : t ∈ read ++ p.interpreter.workspace.queue.toList) (hq : t.phrase = some q) :
    q.Quoted := by
  rcases List.mem_append.1 ht with ht | ht
  · exact h.read t ht q hq
  · exact h.wrapped q (List.mem_filterMap.2 ⟨t, ht, hq⟩)

theorem run_quoted {t : Interpreter} {input : Cell Phrase} (h : t.Sound)
    (fuel : Nat) (hw : ∀ q ∈ t.workspace.wrapped, q.Quoted) (hi : ∀ q ∈ input, q.Quoted) :
    (∀ q ∈ (t.run fuel input).2.1.workspace.wrapped, q.Quoted) ∧
      ∀ q ∈ (t.run fuel input).2.2, q.Quoted := by
  obtain ⟨hwrapped, hinput⟩ := h.run_takes fuel input
  have htaken : ∀ q ∈ (t.takings fuel input).map (·.2) ++ (t.run fuel input).2.2.toList,
      q.Quoted := by
    rw [← hinput]
    exact fun q hq => hi q (Option.mem_toList.1 hq)
  refine ⟨fun q hq => ?_, fun q hq => ?_⟩
  · rw [hwrapped] at hq
    rcases List.mem_append.1 hq with hq | hq
    · exact hw q hq
    · obtain ⟨taking, ht, rfl⟩ := List.mem_map.1 hq
      exact htaken _ (List.mem_append_left _ (List.mem_map_of_mem (List.mem_filter.1 ht).1))
  · exact htaken q (List.mem_append_right _ (Option.mem_toList.2 hq))

theorem Holds.parse (h : p.Holds read) (fuel : Nat) :
    let result := p.interpreter.parse fuel p.phrase
    Holds { p with interpreter := result.2.1, phrase := result.2.2 } read ∧
      p.interpreter.Asks result.2.1 := by
  obtain ⟨hhandshake, hasks⟩ := h.handshake.parse fuel p.phrase
  have hquoted : (∀ q ∈ (p.interpreter.parse fuel p.phrase).2.1.workspace.wrapped, q.Quoted) ∧
      ∀ q ∈ (p.interpreter.parse fuel p.phrase).2.2, q.Quoted := by
    cases hf : p.interpreter.finished with
    | true =>
      rw [Interpreter.parse_finished h.handshake.started hf]
      exact ⟨h.wrapped, h.supplied.phrase⟩
    | false =>
      rw [Interpreter.parse_eq_run h.handshake.started hf]
      exact run_quoted h.handshake.sound fuel h.wrapped h.supplied.phrase
  exact ⟨⟨hhandshake, { h.supplied with phrase := hquoted.2 }, h.read, hquoted.1⟩, hasks⟩

theorem Holds.fillPhrase (h : p.Holds read) (hf : p.fillPhrase = .ok (ready, p')) :
    p'.Holds read ∧ p'.interpreter = p.interpreter := by
  obtain ⟨hsupplied, hinterpreter⟩ := fillPhrase_supplies hf h.supplied
  refine ⟨⟨?_, hsupplied, h.read, ?_⟩, hinterpreter⟩
  · rw [hinterpreter]
    exact h.handshake
  · rw [hinterpreter]
    exact h.wrapped

def ComesTo (p : Pipeline) : Progress → Prop
  | .resourceNeeded => ∃ r, p.request? = some r
  | .eof => p.interpreter.finished = true
  | _ => True

structure Worked (p : Pipeline) (read : List Term) (result : Except Halt Progress × Pipeline) :
    Prop where
  holds : result.2.Holds read
  asks : p.interpreter.Asks result.2.interpreter
  comes : ∀ progress, result.1 = .ok progress → result.2.ComesTo progress

theorem Holds.comes (h : p.Holds read) (fuel : Nat) (progress : Progress)
    (hp : (p.interpreter.parse fuel p.phrase).1 = .ok progress) :
    ComesTo { p with
      interpreter := (p.interpreter.parse fuel p.phrase).2.1
      phrase := (p.interpreter.parse fuel p.phrase).2.2 } progress := by
  cases progress with
  | resourceNeeded => exact h.handshake.exists_request fuel p.phrase hp
  | eof => exact h.handshake.finished_of_eof fuel p.phrase hp
  | inputNeeded => trivial
  | outputAvailable => trivial

theorem Holds.work (h : p.Holds read) (fuel rounds : Nat) :
    Worked p read (work fuel rounds p) := by
  induction rounds generalizing p with
  | zero => exact ⟨h, .refl _, fun progress he => by cases he⟩
  | succ rounds ih =>
    obtain ⟨hholds, hasks⟩ := h.parse fuel
    have hcomes := h.comes fuel
    unfold Pipeline.work
    generalize p.interpreter.parse fuel p.phrase = result at hholds hasks hcomes ⊢
    obtain ⟨outcome, t, cell⟩ := result
    cases outcome with
    | error e => exact ⟨hholds, hasks, fun progress he => by cases he⟩
    | ok progress =>
      cases progress with
      | inputNeeded =>
        dsimp only
        cases hfill : Pipeline.fillPhrase { p with interpreter := t, phrase := cell } with
        | error m => exact ⟨hholds, hasks, fun progress he => by cases he⟩
        | ok found =>
          obtain ⟨ready, p₁⟩ := found
          obtain ⟨hholds₁, hinterpreter⟩ := hholds.fillPhrase hfill
          have hasks₁ : p.interpreter.Asks p₁.interpreter := hinterpreter ▸ hasks
          cases ready with
          | false => exact ⟨hholds₁, hasks₁, fun progress he => by cases he; trivial⟩
          | true =>
            have hw := ih hholds₁
            exact ⟨hw.holds, hasks₁.trans hw.asks, hw.comes⟩
      | outputAvailable => exact ⟨hholds, hasks, hcomes⟩
      | resourceNeeded => exact ⟨hholds, hasks, hcomes⟩
      | eof => exact ⟨hholds, hasks, hcomes⟩

theorem Holds.after_read {t : Term} (h : p.Holds read) (hr : p.read = .ok (t, p')) :
    p'.Holds (read ++ [t]) ∧ p.interpreter.Asks p'.interpreter := by
  cases hi : p.interpreter.read with
  | error m => simp [Pipeline.read, hi, bind, Except.bind] at hr
  | ok found =>
    obtain ⟨u, i⟩ := found
    simp only [Pipeline.read, hi, bind, Except.bind] at hr
    cases hr
    obtain ⟨hhandshake, hasks⟩ := h.handshake.after_read hi
    obtain ⟨q, rfl, hl, -⟩ := h.handshake.sound.read_eq hi
    have hwrapped : ∀ w ∈ (t :: q.toList).filterMap Term.phrase, w.Quoted := hl ▸ h.wrapped
    refine ⟨⟨hhandshake, { h.supplied with }, ?_, fun w hw => hwrapped w ?_⟩, hasks⟩
    · refine List.forall_mem_append.2 ⟨h.read, List.forall_mem_singleton.2 fun w hw => ?_⟩
      exact hwrapped w (List.mem_filterMap.2 ⟨t, List.mem_cons_self, hw⟩)
    · obtain ⟨u, hu, huw⟩ := List.mem_filterMap.1 hw
      exact List.mem_filterMap.2 ⟨u, List.mem_cons_of_mem _ hu, huw⟩

def withGrammar (p : Pipeline) (g : Grammar) (forced : Bool) : Pipeline :=
  { p with interpreter := { p.interpreter with workspace :=
    { p.interpreter.workspace with grammar := some g, forced := forced } } }

theorem Holds.withGrammar {g : Grammar} (h : p.Holds read)
    (hn : p.interpreter.workspace.grammar = none) (hb : g.Built) (forced : Bool) :
    (p.withGrammar g forced).Holds read :=
  ⟨h.handshake.give hn hb forced, { h.supplied with }, h.read, h.wrapped⟩

theorem exists_interpreter {result : Except Misuse Interpreter}
    (h : (do return { p with interpreter := ← result }) = Except.ok p') :
    ∃ t, result = .ok t ∧ p' = { p with interpreter := t } := by
  cases result with
  | error m => cases h
  | ok t => exact ⟨t, rfl, (Except.ok.inj h).symm⟩

theorem forceGrammar_ok {g : Grammar} (h : p.forceGrammar g = .ok p') :
    p.interpreter.workspace.grammar = none ∧ p' = p.withGrammar g true := by
  obtain ⟨t, ht, rfl⟩ := exists_interpreter h
  obtain ⟨hn, rfl⟩ := Interpreter.forceGrammar_ok ht
  exact ⟨hn, rfl⟩

theorem Holds.provideGrammar_ok {g : Grammar} (hp : p.Holds read)
    (h : p.provideGrammar g = .ok p') :
    p.interpreter.workspace.grammar = none ∧ p' = p.withGrammar g false := by
  obtain ⟨t, ht, rfl⟩ := exists_interpreter h
  obtain ⟨hn, rfl⟩ := Interpreter.provideGrammar_ok ht
  refine ⟨hn, ?_⟩
  rw [← hp.handshake.unforced hn]
  rfl

theorem give_eq (h : p.interpreter.workspace.grammar = none) (g : Grammar) :
    (∃ p', p.forceGrammar g = .ok p') ∧ ∃ p', p.provideGrammar g = .ok p' := by
  constructor
  · exact ⟨_, by rw [forceGrammar, Interpreter.forceGrammar, h]; rfl⟩
  · exact ⟨_, by rw [provideGrammar, Interpreter.provideGrammar, h]; rfl⟩

theorem give_again {g₀ : Grammar} (h : p.interpreter.workspace.grammar = some g₀) (g : Grammar) :
    p.forceGrammar g = .error .grammarAlreadyProvided ∧
      p.provideGrammar g = .error .grammarAlreadyProvided := by
  constructor
  · rw [forceGrammar, Interpreter.forceGrammar, h]
    rfl
  · rw [provideGrammar, Interpreter.provideGrammar, h]
    rfl

theorem exists_new (source : String) (settings : Settings) :
    ∃ p, new source settings = .ok p ∧ p.Holds [] ∧
      p.interpreter.workspace.grammar = none ∧ p.interpreter.workspace.request = none := by
  let l : Lexer := { Lexer.new settings with source := some source, position := .start }
  let g : Grouper := { Grouper.new with source := some source }
  let t : Interpreter :=
    { Interpreter.new with
      started := true
      workspace := { Workspace.new with source := source }
      stack := [⟨.document .new, .none⟩] }
  have hstart : Interpreter.new.start source = .ok t := rfl
  refine ⟨⟨source, .empty, false, l, g, t, none, none⟩, rfl,
    ⟨.start hstart, ?_, List.forall_mem_nil _, ?_⟩, rfl, rfl⟩
  · have hnone {α : Type} {Q : α → Prop} : ∀ a ∈ (none : Option α), Q a := nofun
    exact ⟨⟨source, rfl⟩, ⟨source, rfl⟩, hnone, hnone, hnone, hnone⟩
  · have hwrapped : t.workspace.wrapped = [] := rfl
    rw [hwrapped]
    exact List.forall_mem_nil _

namespace Dialogue

/-- What holds of a dialogue in which all grammars have the property `P`. -/
structure Held (P : Grammar → Prop) (d : Dialogue) : Prop where
  holds : d.pipeline.Holds d.terms
  given_eq : d.given = d.pipeline.interpreter.workspace.grammar.toList.map
    fun g => (g, d.pipeline.interpreter.workspace.forced)
  property : ∀ g, d.pipeline.interpreter.workspace.grammar = some g → P g
  requests_eq : d.requests = d.pipeline.interpreter.workspace.request.toList

variable {P : Grammar → Prop} {d : Dialogue} {call : Call}

theorem newRequests_of_asks (h : p.interpreter.Asks p'.interpreter) :
    p.interpreter.workspace.request.toList ++ newRequests p p' =
      p'.interpreter.workspace.request.toList := by
  unfold newRequests request? Interpreter.request?
  rw [h.grammar_eq]
  rcases h.request_eq with hr | ⟨hg, hr⟩
  · rw [hr, if_pos rfl, List.append_nil]
  · rw [hg, hr]
    cases p'.interpreter.workspace.request <;> rfl

theorem newRequests_of_none (h : p'.request? = none) : newRequests p p' = [] := by
  unfold newRequests
  rw [h]
  split <;> rfl

theorem Held.of_asks {e : Dialogue} (h : d.Held P) (hd : e.pipeline.Holds e.terms)
    (ha : d.pipeline.interpreter.Asks e.pipeline.interpreter) (hg : e.given = d.given) :
    (d.recording e).Held P where
  holds := hd
  given_eq := by
    change e.given = _
    rw [hg, h.given_eq, ← ha.grammar_eq, ← ha.forced_eq]
    rfl
  property := fun g hg => h.property g (ha.grammar_eq.symm.trans hg)
  requests_eq := by
    change d.requests ++ _ = _
    rw [h.requests_eq, newRequests_of_asks ha]
    rfl

theorem Held.accept {g : Grammar} {forced : Bool} {result : Except Misuse Pipeline} (h : d.Held P)
    (hP : ∀ g, P g → g.Built) (hg : P g)
    (hr : ∀ p, result = .ok p → d.pipeline.interpreter.workspace.grammar = none ∧
      p = d.pipeline.withGrammar g forced) :
    (d.recording (d.accept [(g, forced)] result)).Held P := by
  cases result with
  | error m => exact h.of_asks h.holds (.refl _) rfl
  | ok p =>
    obtain ⟨hn, rfl⟩ := hr p rfl
    refine ⟨h.holds.withGrammar hn (hP g hg) forced, ?_, fun g' hg' => ?_, ?_⟩
    · change d.given ++ _ = _
      rw [h.given_eq, hn]
      rfl
    · cases hg'
      exact hg
    · change d.requests ++ newRequests _ _ = _
      rw [newRequests_of_none rfl, List.append_nil]
      exact h.requests_eq

theorem Held.perform (h : d.Held P) (hP : ∀ g, P g → g.Built)
    (hs : ∀ source r, P (substitute source r)) (hc : call.Gives P) : (d.perform call).Held P := by
  cases call with
  | push text =>
    exact h.of_asks (e := d.act (.push text))
      ⟨h.holds.handshake, { h.holds.supplied with }, h.holds.read, h.holds.wrapped⟩ (.refl _) rfl
  | finish =>
    exact h.of_asks (e := d.act .finish)
      ⟨h.holds.handshake, { h.holds.supplied with }, h.holds.read, h.holds.wrapped⟩ (.refl _) rfl
  | parse fuel =>
    have hw := h.holds.work fuel fuel
    exact h.of_asks (e := d.act (.parse fuel)) hw.holds hw.asks rfl
  | read =>
    change (d.recording (d.act .read)).Held P
    rw [act]
    cases hr : d.pipeline.read with
    | error m => exact h.of_asks h.holds (.refl _) rfl
    | ok found =>
      obtain ⟨hholds, hasks⟩ := h.holds.after_read hr
      exact h.of_asks hholds hasks rfl
  | force g => exact h.accept hP hc fun p hf => forceGrammar_ok hf
  | provide g => exact h.accept hP hc fun p hf => h.holds.provideGrammar_ok hf
  | resolve resolver =>
    change (d.recording (d.accept (answers _ _) (d.pipeline.resolveWith resolver))).Held P
    unfold answers resolveWith
    cases hr : d.pipeline.request? with
    | none => exact h.of_asks h.holds (.refl _) (List.append_nil _)
    | some r =>
      exact h.accept hP (answer_of (hs _) hc r) fun p hf => h.holds.provideGrammar_ok hf

theorem Held.performAll {calls : List Call} (h : d.Held P) (hP : ∀ g, P g → g.Built)
    (hs : ∀ source r, P (substitute source r)) (hc : ∀ c ∈ calls, c.Gives P) :
    (d.performAll calls).Held P := by
  induction calls generalizing d with
  | nil => exact h
  | cons call calls ih =>
    exact ih (h.perform hP hs (hc call List.mem_cons_self)) fun c hmem =>
      hc c (List.mem_cons_of_mem _ hmem)

theorem newRequests_self (p : Pipeline) : newRequests p p = [] := if_pos rfl

theorem recording_self (d : Dialogue) : d.recording d = d := by
  rw [recording, newRequests_self, List.append_nil]

theorem given_prefix (d : Dialogue) (calls : List Call) :
    d.given <+: (d.performAll calls).given := by
  induction calls generalizing d with
  | nil => exact List.prefix_refl _
  | cons call calls ih =>
    refine List.IsPrefix.trans ?_ (ih (d.perform call))
    have haccept : ∀ given result, d.given <+: (d.accept given result).given := by
      intro given result
      cases result with
      | error m => exact List.prefix_refl _
      | ok p => exact List.prefix_append _ _
    change d.given <+: (d.act call).given
    cases call with
    | force g => exact haccept _ _
    | provide g => exact haccept _ _
    | resolve resolver => exact haccept _ _
    | read =>
      rw [act]
      cases d.pipeline.read <;> exact List.prefix_refl _
    | _ => exact List.prefix_refl _

/-- What a caller may rely on at any moment of a dialogue. -/
structure Agrees (d : Dialogue) : Prop where
  /-- A grammar is needed only while one is asked for. -/
  needs : ∀ fuel, (d.pipeline.parse fuel).1 = .ok .resourceNeeded →
    ∃ r, (d.pipeline.parse fuel).2.request? = some r
  /-- While one is asked for, calls to work come to that and change nothing. -/
  waits : ∀ r, d.pipeline.request? = some r →
    ∀ fuel, d.pipeline.parse (fuel + 1) = (.ok .resourceNeeded, d.pipeline)
  requests_le : d.requests.length ≤ 1
  /-- All terms in front of the grammar have been read when it is asked for, with the last strings
  that the declaration has accepted. -/
  asks : ∀ r, d.pipeline.request? = some r → d.requests = [r] ∧
    ∃ strings, Preface d.terms strings ∧ r = referenceOf strings ∧
      ∀ s ∈ strings, s.2.stringBody?.isSome = true
  /-- The first grammar is accepted. -/
  accepts : d.given = [] → ∀ g, (∃ p, d.pipeline.forceGrammar g = .ok p) ∧
    ∃ p, d.pipeline.provideGrammar g = .ok p
  given_le : d.given.length ≤ 1
  lasts : ∀ calls, d.given <+: (d.performAll calls).given
  /-- With a grammar none is needed any more, and no other one is accepted. -/
  refuses : d.given ≠ [] → d.pipeline.request? = none ∧
    (∀ fuel, (d.pipeline.parse fuel).1 ≠ .ok .resourceNeeded) ∧
    (∀ resolver, d.pipeline.resolveWith resolver = .ok d.pipeline) ∧
    ∀ g, d.pipeline.forceGrammar g = .error .grammarAlreadyProvided ∧
      d.pipeline.provideGrammar g = .error .grammarAlreadyProvided
  /-- A grammar that is not accepted makes no difference to what comes later. -/
  ignores : d.given ≠ [] → ∀ g calls,
    d.performAll (.force g :: calls) = d.performAll calls ∧
      d.performAll (.provide g :: calls) = d.performAll calls
  /-- By the end of the input the grammar has been announced once, if it was not forced or has been
  loaded with errors. -/
  announces : ∀ fuel, (d.pipeline.parse fuel).1 = .ok .eof → ∃ g forced, d.given = [(g, forced)] ∧
    d.terms.countP (fun t => t.kind = .grammarIsLoaded) =
      if forced && g.errors.isEmpty then 0 else 1
  /-- Only what stands in front of the first statement, or a declaration, precedes the
  announcement. -/
  precedes : ∀ before t after, d.terms = before ++ t :: after → t.kind = .grammarIsLoaded →
    ∃ strings, Preface before strings

theorem Held.parse_eq (h : d.Held P) {r : GrammarReference} (hr : d.pipeline.request? = some r)
    (fuel : Nat) : d.pipeline.parse (fuel + 1) = (.ok .resourceNeeded, d.pipeline) := by
  unfold Pipeline.parse Pipeline.work
  rw [h.holds.handshake.parse_eq hr]

/-- What has been asked for names strings, and nothing else has been asked for. -/
theorem Held.exists_strings (h : d.Held P) {r : GrammarReference}
    (hr : d.pipeline.request? = some r) :
    d.requests = [r] ∧ ∃ strings, Preface d.terms strings ∧ r = referenceOf strings ∧
      ∀ s ∈ strings, s.2.Taken := by
  obtain ⟨strings, hpreface, href⟩ := h.holds.handshake.exists_preface hr
  refine ⟨?_, strings, hpreface, href, fun s hs => ?_⟩
  · rw [h.requests_eq, (Interpreter.request?_eq_some.1 hr).2]
    rfl
  · obtain ⟨hstring, t, ht, hphrase⟩ := hpreface.exists_term hs
    exact (h.holds.quoted (List.mem_append_left _ ht) hphrase).taken hstring

theorem Held.grammar_eq_none (h : d.Held P) :
    d.pipeline.interpreter.workspace.grammar = none ↔ d.given = [] := by
  rw [h.given_eq]
  cases d.pipeline.interpreter.workspace.grammar with
  | none => simp
  | some g => simp

theorem Held.agrees (h : d.Held P) (hP : ∀ g, P g → g.Silent) : d.Agrees where
  needs := fun fuel hp => (h.holds.work fuel fuel).comes .resourceNeeded hp
  waits := fun r hr fuel => h.parse_eq hr fuel
  requests_le := by
    rw [h.requests_eq]
    cases d.pipeline.interpreter.workspace.request <;> simp
  asks := fun r hr => by
    obtain ⟨hrequests, strings, hpreface, href, hstrings⟩ := h.exists_strings hr
    refine ⟨hrequests, strings, hpreface, href, fun s hs => ?_⟩
    obtain ⟨t, body, -, hbody, -⟩ := hstrings s hs
    rw [hbody]
    rfl
  accepts := fun hg g => give_eq (h.grammar_eq_none.2 hg) g
  given_le := by
    rw [h.given_eq]
    cases d.pipeline.interpreter.workspace.grammar <;> simp
  lasts := d.given_prefix
  refuses := fun hne => by
    obtain ⟨g₀, hg₀⟩ := Option.ne_none_iff_exists'.1 (mt h.grammar_eq_none.1 hne)
    have hrequest : d.pipeline.request? = none := by
      rw [request?, Interpreter.request?, hg₀]
    refine ⟨hrequest, fun fuel hp => ?_, fun resolver => ?_, give_again hg₀⟩
    · have hw := h.holds.work fuel fuel
      obtain ⟨r, hr⟩ := hw.comes .resourceNeeded hp
      have hgrammar := (Interpreter.request?_eq_some.1 hr).1
      rw [hw.asks.grammar_eq, hg₀] at hgrammar
      cases hgrammar
    · rw [resolveWith, hrequest]
  ignores := fun hne g calls => by
    obtain ⟨g₀, hg₀⟩ := Option.ne_none_iff_exists'.1 (mt h.grammar_eq_none.1 hne)
    obtain ⟨hforce, hprovide⟩ := give_again hg₀ g
    have hforced : d.perform (.force g) = d := by
      change d.recording (d.accept _ (d.pipeline.forceGrammar g)) = d
      rw [hforce]
      exact d.recording_self
    have hprovided : d.perform (.provide g) = d := by
      change d.recording (d.accept _ (d.pipeline.provideGrammar g)) = d
      rw [hprovide]
      exact d.recording_self
    exact ⟨congrArg (Dialogue.performAll · calls) hforced,
      congrArg (Dialogue.performAll · calls) hprovided⟩
  announces := fun fuel hp => by
    have hw := h.holds.work fuel fuel
    obtain ⟨g, preface, announcement, rest, hg, hord⟩ :=
      hw.holds.handshake.exists_ordered (hw.comes .eof hp)
    rw [hw.asks.grammar_eq] at hg
    rw [hw.asks.forced_eq] at hord
    refine ⟨g, d.pipeline.interpreter.workspace.forced, ?_, hord.countP_eq (hP g (h.property g hg))⟩
    rw [h.given_eq, hg]
    rfl
  precedes := fun before t after hterms hk =>
    h.holds.handshake.exists_before (fun g hg => hP g (h.property g hg)) hterms hk

theorem exists_held (P : Grammar → Prop) (source : String) (settings : Settings) :
    ∃ p, new source settings = .ok p ∧ (start p).Held P := by
  obtain ⟨p, hp, hholds, hgrammar, hrequest⟩ := exists_new source settings
  refine ⟨p, hp, hholds, ?_, fun g hg => ?_, ?_⟩
  · change [] = _
    rw [show (start p).pipeline.interpreter.workspace.grammar = none from hgrammar]
    rfl
  · cases hgrammar.symm.trans hg
  · change [] = _
    rw [show (start p).pipeline.interpreter.workspace.request = none from hrequest]
    rfl

theorem substitute_silent (source : String) (r : GrammarReference) :
    (substitute source r).Silent :=
  (Grammar.silent_standard false).withLoadErrors _

def reading (n : Nat) : List Call := (List.replicate n [.parse 40, .read]).flatten

theorem gives_reading (P : Grammar → Prop) (n : Nat) : ∀ c ∈ reading n, c.Gives P := by
  intro c hc
  obtain ⟨calls, hcalls, hc⟩ := List.mem_flatten.1 hc
  rw [List.eq_of_mem_replicate hcalls] at hc
  simp only [List.mem_cons, List.not_mem_nil, or_false] at hc
  rcases hc with rfl | rfl <;> trivial

end Dialogue

/-- Whatever is done with a pipeline in whatever order, when all grammars are built and leave it to
the document to announce them. -/
theorem dialogue_agrees (source : String) (settings : Settings) :
    ∃ p, new source settings = .ok p ∧ ∀ calls : List Dialogue.Call,
      (∀ c ∈ calls, c.Gives fun g => g.Built ∧ g.Silent) →
        ((Dialogue.start p).performAll calls).Agrees := by
  obtain ⟨p, hp, hheld⟩ := Dialogue.exists_held (fun g => g.Built ∧ g.Silent) source settings
  refine ⟨p, hp, fun calls hc => ?_⟩
  have hcalls := hheld.performAll (fun g hg => hg.1)
    (fun source r => ⟨substitute_built source r, Dialogue.substitute_silent source r⟩) hc
  exact hcalls.agrees fun g hg => hg.2

/-- The calls that read a declaration with a system id, answer what it asks for, try to force
another grammar, and read the rest. -/
def declaredCalls : List Dialogue.Call :=
  [.push "doctype \"a\"".toList, .finish] ++ Dialogue.reading 9 ++
    [.parse 40, .resolve .standard, .force (Grammar.standard true)] ++ Dialogue.reading 2

theorem dialogue_agrees_declared :
    (∀ c ∈ declaredCalls, c.Gives fun g => g.Built ∧ g.Silent) ∧
    ∃ p, new "in" .standard = .ok p ∧
      let d := (Dialogue.start p).performAll declaredCalls
      d.requests = [⟨none, some "a"⟩] ∧ d.given.length = 1 ∧
        (d.pipeline.parse 40).1.toOption = some .eof ∧ d.Agrees := by
  have hgives : ∀ c ∈ declaredCalls, c.Gives fun g => g.Built ∧ g.Silent := by
    have hgiven : ∀ c ∈ [.parse 40, .resolve .standard, .force (Grammar.standard true)],
        Dialogue.Call.Gives (fun g => g.Built ∧ g.Silent) c := by
      simp only [List.forall_mem_cons]
      exact ⟨trivial,
        fun r g hr => ⟨standard_built r g hr, standard_eq hr ▸ Grammar.silent_standard false⟩,
        ⟨Grammar.built_standard true, Grammar.silent_standard true⟩, List.forall_mem_nil _⟩
    have hpushed : ∀ c ∈ [.push "doctype \"a\"".toList, .finish],
        Dialogue.Call.Gives (fun g => g.Built ∧ g.Silent) c := by
      simp only [List.forall_mem_cons]
      exact ⟨trivial, trivial, List.forall_mem_nil _⟩
    refine List.forall_mem_append.2 ⟨List.forall_mem_append.2 ⟨List.forall_mem_append.2
      ⟨hpushed, Dialogue.gives_reading _ 9⟩, hgiven⟩, Dialogue.gives_reading _ 2⟩
  refine ⟨hgives, ?_⟩
  obtain ⟨p, hp, hall⟩ := dialogue_agrees "in" .standard
  have hread : ((new "in" .standard).toOption.map fun p =>
      let d := (Dialogue.start p).performAll declaredCalls
      (d.requests, d.given.length, (d.pipeline.parse 40).1.toOption)) =
        some ([⟨none, some "a"⟩], 1, some .eof) := by decide +kernel
  rw [hp] at hread
  obtain ⟨hrequests, hgiven⟩ := Prod.mk.inj (Option.some.inj hread)
  obtain ⟨hcount, heof⟩ := Prod.mk.inj hgiven
  exact ⟨p, hp, hrequests, hcount, heof, hall _ hgives⟩

end TermStream.Pipeline
