import TermStream.Proofs.Interpreter.FrameResources
import TermStream.Proofs.Interpreter.Unwinding

namespace TermStream

namespace KeywordStack

variable {s : KeywordStack} {above inner : List KeywordContextId}

theorem top?_inner (h : s.contexts = above ++ inner) : s.top? inner.length = inner.head? := by
  have hd : s.depth = above.length + inner.length := by rw [depth, h, List.length_append]
  unfold top?
  cases inner with
  | nil => rfl
  | cons k inner =>
    have hneg : ¬((k :: inner).length = 0 ∨ s.depth < (k :: inner).length) := by
      rw [hd, List.length_cons]
      omega
    rw [if_neg hneg, hd, Nat.add_sub_cancel, h, List.getElem?_append_right (Nat.le_refl _),
      Nat.sub_self]
    rfl

theorem top?_succ (h : s.contexts = above ++ inner) :
    s.top? (inner.length + 1) = above.getLast? := by
  have hd : s.depth = above.length + inner.length := by rw [depth, h, List.length_append]
  unfold top?
  cases habove : above with
  | nil =>
    rw [habove, List.length_nil, Nat.zero_add] at hd
    rw [if_pos (.inr (by omega))]
    rfl
  | cons k above' =>
    rw [← habove]
    have hpos : 0 < above.length := by rw [habove]; exact Nat.succ_pos _
    rw [if_neg (by omega), hd, h, List.getElem?_append_left (by omega), List.getLast?_eq_getElem?]
    congr 1
    omega

end KeywordStack

def Grammar.classifyBy (g : Grammar) (context : Option KeywordContextId) (p : Phrase) :
    Except MissingPart (Option KeywordId) :=
  if p.kind ≠ .significant then .ok none
  else
    match context with
    | none => .ok none
    | some id => g.classify id p

namespace KeywordStack

theorem classifyAt_eq (s : KeywordStack) (g : Grammar) (depth : Nat) (p : Phrase) :
    s.classifyAt g depth p = g.classifyBy (s.top? depth) p := rfl

theorem classify_fresh (contexts : List KeywordContextId) (g : Grammar) (p : Phrase) :
    ((KeywordStack.mk contexts none).classify g p).map (·.1) = g.classifyBy contexts.head? p := by
  have ht : (KeywordStack.mk contexts none).top? contexts.length = contexts.head? :=
    top?_inner (List.nil_append contexts).symm
  change (((KeywordStack.mk contexts none).classifyAt g contexts.length p).map _).map _ = _
  rw [classifyAt_eq, ht]
  cases g.classifyBy contexts.head? p <;> rfl

end KeywordStack

/-- Whether a rule that has been entered remembers how many sets of keywords there were then: its
own and those of the frames below. -/
def Frame.Remembers (r : Resources) : Frame → Prop
  | .rule f =>
    f.entered = true → f.keywordDepth = f.keywords.toList.length + r.contexts.length
  | _ => True

/-- Every rule of a stack remembers the sets of keywords from when it was entered. -/
def Remembering : List Activation → Prop
  | [] => True
  | a :: below => a.frame.Remembers (held below) ∧ Remembering below

def Move.Remembers (r : Resources) : Move → Prop
  | .again f | .needInput f | .needResource f => f.Remembers r
  | .call f child => f.Remembers r ∧ child.Remembers (f.hold r)
  | .leave _ => True

section
variable {below : List Activation} {ws : Workspace} {input : Cell Phrase} {turn : Turn}
  {result : CallResult} {r : Resources}

theorem Remembering.stackAfter {move : Move} (h : Remembering below)
    (hm : move.Remembers (held below)) :
    Remembering (Interpreter.stackAfter move below).2 := by
  cases move with
  | call f child => exact ⟨hm.2, hm.1, h⟩
  | leave result => cases below <;> exact h
  | _ => exact ⟨hm, h⟩

theorem Voted.remembering {ws : Workspace} {p : Phrase} {below below' : List Activation}
    (h : Voted ws p below below') (hs : Remembering below) : Remembering below' := by
  induction h with
  | here f result below resume hv => exact hs
  | there f result hv h ih => exact ⟨h.held_eq ▸ hs.1, ih hs.2⟩

theorem Remembering.suffix {above stack : List Activation} (h : Remembering (above ++ stack)) :
    Remembering stack := by
  induction above with
  | nil => exact h
  | cons a above ih => exact ih h.2

theorem Frame.remembers_ofRule {g : Grammar} {id : RuleId} {f : Frame}
    (h : Frame.ofRule g id = .ok f) : f.Remembers r := by
  unfold Frame.ofRule at h
  cases hr : g.rule id with
  | error m => rw [hr] at h; cases h
  | ok rule =>
    simp only [hr, bind, Except.bind] at h
    cases hb : rule.body with
    | actions entry => simp only [hb] at h; cases h; exact nofun
    | block context => simp only [hb] at h; cases h; trivial

theorem RuleFrame.remembers_ofContext {g : Grammar} {id : ContextId} {f : RuleFrame}
    (h : RuleFrame.ofContext g id = .ok f) : (Frame.rule f).Remembers r := by
  unfold RuleFrame.ofContext at h
  cases hc : g.context id with
  | error m => rw [hc] at h; cases h
  | ok c => rw [hc] at h; cases h; exact nofun

theorem RuleFrame.remembers_entering {f : RuleFrame} (hf : (Frame.rule f).Remembers r)
    (hr : ws.resources = (Frame.rule f).hold r) :
    (Frame.rule (f.entering ws).1).Remembers r := by
  unfold entering
  split
  · exact hf
  · next he =>
    intro _
    have hc : ws.keywords.contexts.length = r.contexts.length := by
      simp only [Frame.hold, he] at hr
      exact congrArg (fun r => r.contexts.length) hr
    unfold enter
    cases f.marked <;> cases f.keywords <;>
      simp [KeywordStack.depth, KeywordStack.push, Workspace.pushMark, hc, Nat.add_comm]

theorem RuleFrame.Acts.remembers {f : RuleFrame} {a : Action}
    (h : f.Acts below ws result a input turn) (hf : (Frame.rule f).Remembers r) :
    turn.move.Remembers r := by
  cases h with
  | call input rule success failure child hn hc => exact ⟨hf, Frame.remembers_ofRule hc⟩
  | popKeywords input next =>
    unfold dropKeywords
    split <;> exact hf
  | done input success ws₁ hl => trivial
  | _ => exact hf

theorem Frame.Turns.remembers {frame : Frame} (h : Frame.Turns below ws result frame input turn)
    (hf : frame.Remembers r) (hr : ws.resources = frame.hold r) : turn.move.Remembers r := by
  cases h with
  | document f h => cases h <;> trivial
  | sequence f h => cases h <;> trivial
  | statement f h =>
    cases h with
    | enter p ws₁ ws₂ entry hp hk hs hm he => exact ⟨trivial, RuleFrame.remembers_ofContext he⟩
    | block p hp hk => exact ⟨trivial, trivial⟩
    | _ => trivial
  | block f h => cases h <;> trivial
  | rule f a ha h => exact h.remembers (RuleFrame.remembers_entering hf hr)

theorem Frame.Turns.remembering {frame : Frame}
    (h : Frame.Turns below ws result frame input turn)
    (hs : Remembering (⟨frame, result⟩ :: below)) (hr : ws.resources = frame.hold (held below)) :
    Remembering (Interpreter.stackAfter turn.move turn.below).2 := by
  have hm := h.remembers hs.1 hr
  rcases h.below_eq with hb | ⟨ws', p, hv⟩
  · rw [hb]
    exact hs.2.stackAfter hm
  · exact (hv.remembering hs.2).stackAfter (hv.held_eq ▸ hm)

end

theorem Shaped.entered {a : Activation} {above below : List Activation} {f : RuleFrame}
    {result : CallResult} (h : Shaped (a :: above ++ ⟨.rule f, result⟩ :: below)) :
    f.entered = true := by
  induction above generalizing a with
  | nil => exact ((Frame.awaits_rule f _).1 h.1).2
  | cons b above ih => exact ih h.2

namespace Interpreter

/-- All rules on the stack of a sound interpreter remember their keywords. -/
structure Recalls (t : Interpreter) : Prop where
  sound : t.Sound
  remembering : Remembering t.stack

theorem Recalls.step {t : Interpreter} (h : t.Recalls) (input : Cell Phrase) :
    (t.step input).2.1.Recalls := by
  have hs := step_steps t input
  refine ⟨(h.sound.steps hs).2, ?_⟩
  have hm := h.remembering
  generalize t.step input = r at hs ⊢
  obtain ⟨outcome, t', input'⟩ := r
  cases hs with
  | output ho => exact hm
  | finish ho hstack => exact hm
  | lose a below e ho hstack he => exact (hstack ▸ hm).2
  | move a below turn ho hstack ht =>
    have hr := h.sound.resources
    rw [hstack] at hm hr
    exact (stepFrame_turns ht).remembering hm hr

theorem visited_preserves {P : Interpreter → Prop}
    (hstep : ∀ t input, P t → P (t.step input).2.1) {fuel : Nat} {t : Interpreter}
    {input : Cell Phrase} (h : P t) : ∀ t' ∈ t.visited fuel input, P t' := by
  induction fuel using Nat.strongRecOn generalizing t input with
  | ind fuel ih =>
    cases fuel with
    | zero => exact fun t' ht => List.mem_singleton.1 ht ▸ h
    | succ fuel =>
      obtain ⟨n, hn, hv, -⟩ := visited_succ fuel t input
      rw [hv]
      exact List.forall_mem_cons.2 ⟨h, ih n (Nat.lt_succ_of_le hn) (hstep t input h)⟩

namespace Session

variable {s : Session}

theorem stack_perform {call : Call} (hs : s.Sound) (hc : ∀ fuel, call ≠ .parse fuel) :
    (s.perform call).interpreter.stack = s.interpreter.stack ∨
      (s.perform call).interpreter.stack =
        ⟨.document .new, .none⟩ :: s.interpreter.stack := by
  cases call with
  | parse fuel => exact absurd rfl (hc fuel)
  | start source =>
    rw [perform, Interpreter.start]
    split
    · exact .inl rfl
    · exact .inr rfl
  | force g =>
    rw [perform, forceGrammar]
    split <;> exact .inl rfl
  | provide g =>
    rw [perform, provideGrammar]
    split <;> exact .inl rfl
  | put p =>
    rw [perform, put]
    split <;> exact .inl rfl
  | read =>
    rw [perform, Session.read]
    cases ho : s.interpreter.workspace.queue.hasOutput with
    | false =>
      have he : s.interpreter.read = .error (.nothingToRead .terms) := by
        simp [Interpreter.read, ho]
      rw [he]
      exact .inl rfl
    | true =>
      obtain ⟨term, q, hr, -, -⟩ := hs.interpreter.exists_read ho
      rw [hr]
      exact .inl rfl

theorem recalls_visitedBy {call : Call} (hs : s.Sound) (hr : Remembering s.interpreter.stack)
    (hb : call.Builds) :
    (∀ t ∈ s.visitedBy call, t.Recalls) ∧ (s.perform call).interpreter.Recalls := by
  have hsound := (hs.perform hb).interpreter
  by_cases hc : ∀ fuel, call ≠ .parse fuel
  · have hrec : (s.perform call).interpreter.Recalls := by
      refine ⟨hsound, ?_⟩
      rcases stack_perform hs hc with h | h <;> rw [h]
      · exact hr
      · exact ⟨trivial, hr⟩
    rw [visitedBy_eq s hc]
    exact ⟨fun t ht => List.mem_singleton.1 ht ▸ hrec, hrec⟩
  · obtain ⟨fuel, rfl⟩ : ∃ fuel, call = .parse fuel := by simpa using hc
    have hrec : s.interpreter.Recalls := ⟨hs.interpreter, hr⟩
    rcases visitedBy_parse s fuel with ⟨hv, hp⟩ | ⟨hv, hp⟩
    · rw [hv, hp]
      exact ⟨fun t ht => List.mem_singleton.1 ht ▸ hrec, hrec⟩
    · have hall : ∀ t ∈ s.interpreter.visited fuel s.cell, t.Recalls :=
        visited_preserves (fun t input h => h.step input) hrec
      rw [hv, hp]
      exact ⟨hall, hall _ (run_mem_visited fuel s.interpreter s.cell)⟩

theorem recalls_visited {calls : List Call} (hs : s.Sound) (hr : Remembering s.interpreter.stack)
    (hb : ∀ call ∈ calls, call.Builds) : ∀ t ∈ s.visited calls, t.Recalls := by
  induction calls generalizing s with
  | nil => exact fun t ht => List.mem_singleton.1 ht ▸ ⟨hs.interpreter, hr⟩
  | cons call calls ih =>
    have hcall := hb call List.mem_cons_self
    obtain ⟨hvisited, hnext⟩ := recalls_visitedBy hs hr hcall
    rw [visited, List.forall_mem_append]
    exact ⟨hvisited, ih (hs.perform hcall) hnext.remembering fun c hc =>
      hb c (List.mem_cons_of_mem _ hc)⟩

theorem last_mem_visited (s : Session) (calls : List Call) :
    (s.performAll calls).interpreter ∈ s.visited calls := by
  induction calls generalizing s with
  | nil => exact List.mem_singleton_self _
  | cons call calls ih => exact List.mem_append_right _ (ih (s.perform call))

end Session

variable {t : Interpreter} {top f : RuleFrame} {r result : CallResult} {mid below : List Activation}

theorem Recalls.asked_contexts (h : t.Recalls)
    (hstack : t.stack = ⟨.rule top, r⟩ :: mid ++ ⟨.rule f, result⟩ :: below) :
    (top.entering t.workspace).2.keywords.contexts =
      (⟨.rule (top.entering t.workspace).1, r⟩ :: mid).flatMap Activation.contexts ++
        (⟨.rule f, result⟩ :: below).flatMap Activation.contexts := by
  have hres := h.sound.resources
  have hfit := h.sound.fits ⟨.rule top, r⟩ (hstack ▸ List.mem_cons_self)
  rw [hstack] at hres
  have henter := (RuleFrame.resources_entering hres fun hp => (RuleFrame.Fits.pushed hfit hp).1).2
  rw [← List.flatMap_append, ← held_contexts]
  exact congrArg Resources.contexts henter

/-- The depth that a rule remembers is that of the keywords of it and the frames below, unless the
rule has given up its own. Then it is one level higher. -/
theorem Recalls.depth_eq (h : t.Recalls)
    (hstack : t.stack = ⟨.rule top, r⟩ :: mid ++ ⟨.rule f, result⟩ :: below) :
    f.keywordDepth = ((⟨.rule f, result⟩ :: below).flatMap Activation.contexts).length +
      (if f.keywordsPushed = f.keywords.isSome then 0 else 1) := by
  have hentered : f.entered = true := Shaped.entered (hstack ▸ h.sound.shaped)
  have hfit : f.Fits t.workspace.grammar :=
    h.sound.fits ⟨.rule f, result⟩ (hstack ▸ List.mem_append_right _ List.mem_cons_self)
  have hdepth : f.keywordDepth =
      f.keywords.toList.length + (below.flatMap Activation.contexts).length := by
    have hm := Remembering.suffix (hstack ▸ h.remembering)
    rw [← held_contexts]
    exact hm.1 hentered
  have hinner : (⟨.rule f, result⟩ :: below).flatMap Activation.contexts =
      (if f.keywordsPushed then f.keywords.toList else []) ++
        below.flatMap Activation.contexts := by
    simp [Activation.contexts, hentered]
  rw [hdepth, hinner, List.length_append]
  cases hpushed : f.keywordsPushed with
  | true =>
    rw [if_pos rfl, if_pos (hfit.pushed hpushed).2.symm]
    rfl
  | false =>
    cases f.keywords with
    | none => rfl
    | some k => simp [Nat.add_comm 1]

end Interpreter

namespace RuleFrame

/-- The keyword that a choice of the frame sees at a phrase when these frames, of which it is the
first, are all there is. -/
def choiceKeyword (f : RuleFrame) (stack : List Activation) (p : Phrase) :
    Except MissingPart (Option KeywordId) :=
  ((KeywordStack.mk (stack.flatMap Activation.contexts) none).classify f.grammar p).map (·.1)

def testKeyword (f : RuleFrame) (ws : Workspace) (p : Phrase) :
    Except MissingPart (Option KeywordId) :=
  ws.keywords.classifyAt f.grammar f.keywordDepth p

/-- The keyword that the recovery test of the frame sees below the frames `above`, where it is the
first of the frames `inner`: that of a choice of the frame, unless the frame has given up its
keywords. Then it is one of the outermost set above. -/
def seenKeyword (f : RuleFrame) (above inner : List Activation) (p : Phrase) :
    Except MissingPart (Option KeywordId) :=
  if f.keywordsPushed = f.keywords.isSome then f.choiceKeyword inner p
  else f.grammar.classifyBy (above.flatMap Activation.contexts).getLast? p

variable {f : RuleFrame} {ws : Workspace} {inner : List Activation} {above : List KeywordContextId}

/-- At the depth of the frame's own keywords the test sees what a choice of the frame would see. -/
theorem testKeyword_own (hd : f.keywordDepth = (inner.flatMap Activation.contexts).length)
    (hw : ws.keywords.contexts = above ++ inner.flatMap Activation.contexts) (p : Phrase) :
    f.testKeyword ws p = f.choiceKeyword inner p := by
  rw [choiceKeyword, KeywordStack.classify_fresh, testKeyword, KeywordStack.classifyAt_eq, hd,
    KeywordStack.top?_inner hw]

/-- One level higher the test sees the outermost keywords of the frames above. -/
theorem testKeyword_outermost
    (hd : f.keywordDepth = (inner.flatMap Activation.contexts).length + 1)
    (hw : ws.keywords.contexts = above ++ inner.flatMap Activation.contexts) (p : Phrase) :
    f.testKeyword ws p = f.grammar.classifyBy above.getLast? p := by
  rw [testKeyword, KeywordStack.classifyAt_eq, hd, KeywordStack.top?_succ hw]

theorem vote_eq_of_testKeyword {ws' : Workspace} {p : Phrase}
    (h : f.testKeyword ws p = f.testKeyword ws' p) : f.vote ws p = f.vote ws' p := by
  unfold testKeyword at h
  unfold vote
  rw [h]

end RuleFrame

namespace Interpreter

theorem Recalls.testKeyword_eq {t : Interpreter} (h : t.Recalls) {top f : RuleFrame}
    {r result : CallResult} {mid below : List Activation}
    (hstack : t.stack = ⟨.rule top, r⟩ :: mid ++ ⟨.rule f, result⟩ :: below) (p : Phrase) :
    f.testKeyword (top.entering t.workspace).2 p =
      f.seenKeyword (⟨.rule (top.entering t.workspace).1, r⟩ :: mid)
        (⟨.rule f, result⟩ :: below) p := by
  have hcontexts := h.asked_contexts hstack
  have hdepth := h.depth_eq hstack
  rw [RuleFrame.seenKeyword]
  split
  · next hkept =>
    rw [if_pos hkept, Nat.add_zero] at hdepth
    exact RuleFrame.testKeyword_own hdepth hcontexts p
  · next hgone =>
    rw [if_neg hgone] at hdepth
    exact RuleFrame.testKeyword_outermost hdepth hcontexts p

/-- Whenever a rule may ask the rules below it to vote, the test of a rule that still has its
keywords sees those that a choice of that rule would see, and nothing above it matters for its vote.
The test of a rule that has given up its keywords sees the outermost ones of the frames above
instead. -/
theorem Session.tests_see_own_keywords (calls : List Call) (hb : ∀ call ∈ calls, call.Builds)
    {t : Interpreter} (ht : t ∈ new.visited calls) {top f : RuleFrame} {r result : CallResult}
    {mid below : List Activation}
    (hstack : t.stack = ⟨.rule top, r⟩ :: mid ++ ⟨.rule f, result⟩ :: below) (p : Phrase) :
    let asking := top.entering t.workspace
    let inner := ⟨.rule f, result⟩ :: below
    (f.keywordsPushed = f.keywords.isSome →
      f.testKeyword asking.2 p = f.choiceKeyword inner p ∧
        f.vote asking.2 p =
          f.vote { asking.2 with
            keywords := ⟨inner.flatMap Activation.contexts, none⟩ } p) ∧
      (f.keywordsPushed ≠ f.keywords.isSome →
        f.testKeyword asking.2 p = f.grammar.classifyBy
          ((⟨.rule asking.1, r⟩ :: mid).flatMap Activation.contexts).getLast? p) := by
  intro asking inner
  have hrec : t.Recalls := recalls_visited new_sound trivial hb t ht
  have hcontexts := hrec.asked_contexts hstack
  have hdepth := hrec.depth_eq hstack
  refine ⟨fun hkept => ?_, fun hgone => ?_⟩
  · rw [if_pos hkept, Nat.add_zero] at hdepth
    have htest := RuleFrame.testKeyword_own hdepth hcontexts p
    refine ⟨htest, RuleFrame.vote_eq_of_testKeyword (htest.trans ?_)⟩
    exact (RuleFrame.testKeyword_own hdepth (List.nil_append _).symm p).symm
  · rw [if_neg hgone] at hdepth
    exact RuleFrame.testKeyword_outermost hdepth hcontexts p

/-- A grammar in which a statement may give up its keywords before it calls a rule that has others.
The word "end" is a keyword of the rule only, and the statement votes at it. -/
def poppingGrammar (pops : Bool) : Grammar where
  systemId := "popping"
  isScript := true
  actions := #[
    .recoverySetup 4 (if pops then 1 else 2),
    .popKeywords 2,
    .call 0 3 3,
    .done true,
    .choice ⟨[], [(1, 5)], [], 3⟩,
    .recoveryVote 6 3,
    .recoveryChoice 3 3,
    .recoveryChoice 8 9,
    .report .value .primary none true 3,
    .report .value .skipped none true 3]
  rules := #[⟨"inner", .actions 7, false, some 1, false⟩]
  contexts := #[⟨"statement", 0, some 0⟩]
  defaultContext := 0
  keywords := #["begin", "end"]
  keywordContexts := #[⟨"outer", [("begin", 0)]⟩, ⟨"inner", [("end", 1)]⟩]
  errors := .nil

def endPhrase : Phrase :=
  .ofToken .significant ⟨.simple .identifier, "end", .start, ⟨1, 4, 3⟩, .nil⟩

def poppingCalls (pops : Bool) : List Call :=
  [.start "in", .force (poppingGrammar pops), .put endPhrase, .parse 9, .read,
    .parse (if pops then 3 else 2)]

/-- A statement that has kept its keywords does not vote at a keyword of the rule it has called. -/
theorem Session.tests_see_own_keywords_kept :
    let t := (new.performAll (poppingCalls false)).interpreter
    (∀ call ∈ poppingCalls false, call.Builds) ∧ t ∈ new.visited (poppingCalls false) ∧
      ∃ top r f result below,
        t.stack = ⟨.rule top, r⟩ :: [] ++ ⟨.rule f, result⟩ :: below ∧
          f.keywordsPushed = f.keywords.isSome ∧
          f.testKeyword (top.entering t.workspace).2 endPhrase =
            f.choiceKeyword (⟨.rule f, result⟩ :: below) endPhrase := by
  intro t
  have hb : ∀ call ∈ poppingCalls false, call.Builds := by
    simp [poppingCalls, Call.Builds, Grammar.built_of_dangling? (g := poppingGrammar false) rfl]
  have ht : t ∈ new.visited (poppingCalls false) := new.last_mem_visited _
  obtain ⟨top, r, f, result, below, hstack, hkept⟩ : ∃ top r f result below,
      t.stack = ⟨.rule top, r⟩ :: [] ++ ⟨.rule f, result⟩ :: below ∧
        f.keywordsPushed = f.keywords.isSome := ⟨_, _, _, _, _, rfl, rfl⟩
  have hsees := (Session.tests_see_own_keywords (poppingCalls false) hb ht hstack endPhrase).1 hkept
  exact ⟨hb, ht, top, r, f, result, below, hstack, hkept, hsees.1⟩

/-- A statement that has given up its keywords votes at a keyword of the rule it has called, at
which a choice of its own would see none. -/
theorem Session.test_sees_inner_keywords :
    let t := (new.performAll (poppingCalls true)).interpreter
    (∀ call ∈ poppingCalls true, call.Builds) ∧ t ∈ new.visited (poppingCalls true) ∧
      ∃ top r f result below,
        t.stack = ⟨.rule top, r⟩ :: ⟨.rule f, result⟩ :: below ∧
          f.testKeyword (top.entering t.workspace).2 endPhrase = .ok (some 1) ∧
          f.choiceKeyword (⟨.rule f, result⟩ :: below) endPhrase = .ok none ∧
          f.vote (top.entering t.workspace).2 endPhrase = .ok (some 6) := by
  intro t
  have hb : ∀ call ∈ poppingCalls true, call.Builds := by
    simp [poppingCalls, Call.Builds, Grammar.built_of_dangling? (g := poppingGrammar true) rfl]
  have ht : t ∈ new.visited (poppingCalls true) := new.last_mem_visited _
  exact ⟨hb, ht, _, _, _, _, _, rfl, rfl, rfl, rfl⟩

end Interpreter

end TermStream
