import TermStream.Proofs.Interpreter.Wrapping

namespace TermStream

def Frame.Saves (r : Resources) : Frame → Prop
  | .block f => f.phase ≠ .opening → f.savedSoftEnd = r.softEnds
  | _ => True

/-- Every open block of a stack has saved what the frames below it have taken. -/
def Saved : List Activation → Prop
  | [] => True
  | a :: below => a.frame.Saves (held below) ∧ Saved below

def Move.Saves (r : Resources) : Move → Prop
  | .again f | .needInput f | .needResource f => f.Saves r
  | .call f child => f.Saves r ∧ child.Saves (f.hold r)
  | .leave _ => True

/-- The resources are those that the frames hold, and the frames refer to what exists. -/
structure Interpreter.Sound (t : Interpreter) : Prop where
  shaped : Shaped t.stack
  fits : ∀ a ∈ t.stack, a.frame.Fits t.workspace.grammar
  built : ∀ g, t.workspace.grammar = some g → g.Built
  resources : t.workspace.resources = held t.stack
  saved : Saved t.stack
  queued : t.workspace.Queued

variable {below : List Activation} {ws : Workspace} {input : Cell Phrase} {turn : Turn}
  {result : CallResult} {r : Resources}

theorem held_deliver (stack : List Activation) :
    held (Interpreter.deliver result stack) = held stack := by
  cases stack <;> rfl

theorem Saved.deliver {stack : List Activation} (h : Saved stack) :
    Saved (Interpreter.deliver result stack) := by
  cases stack with
  | nil => trivial
  | cons a below => exact h

theorem held_stackAfter (move : Move) (below : List Activation) :
    held (Interpreter.stackAfter move below).2 = move.hold (held below) := by
  cases move with
  | leave result => exact held_deliver below
  | _ => rfl

theorem Saved.stackAfter {move : Move} (h : Saved below) (hm : move.Saves (held below)) :
    Saved (Interpreter.stackAfter move below).2 := by
  cases move with
  | call f child => exact ⟨hm.2, hm.1, h⟩
  | leave result => exact h.deliver
  | _ => exact ⟨hm, h⟩

theorem Voted.held_eq {ws : Workspace} {p : Phrase} {below below' : List Activation}
    (h : Voted ws p below below') : held below' = held below := by
  induction h with
  | here f result below resume hv => rfl
  | there f result hv h ih => exact congrArg (Frame.rule f).hold ih

theorem Voted.saved {ws : Workspace} {p : Phrase} {below below' : List Activation}
    (h : Voted ws p below below') (hs : Saved below) : Saved below' := by
  induction h with
  | here f result below resume hv => exact hs
  | there f result hv h ih => exact ⟨trivial, ih hs.2⟩

theorem Frame.saves_ofRule {g : Grammar} {id : RuleId} {f : Frame}
    (h : Frame.ofRule g id = .ok f) : f.Saves r := by
  unfold Frame.ofRule at h
  cases hr : g.rule id with
  | error m => rw [hr] at h; cases h
  | ok rule =>
    simp only [hr, bind, Except.bind] at h
    cases hb : rule.body with
    | actions entry => simp only [hb] at h; cases h; trivial
    | block context => simp only [hb] at h; cases h; exact fun hp => absurd rfl hp

theorem Frame.Turns.saves {frame : Frame} (h : Frame.Turns below ws result frame input turn)
    (hr : ws.resources = frame.hold r) (hs : frame.Saves r) : turn.move.Saves r := by
  cases h with
  | document f h => cases h <;> trivial
  | sequence f h => cases h <;> trivial
  | statement f h =>
    cases h with
    | block p hp hk => exact ⟨trivial, fun hp => absurd rfl hp⟩
    | enter p ws₁ ws₂ entry hp hk hs hm he => exact ⟨trivial, trivial⟩
    | _ => trivial
  | block f h =>
    cases h with
    | enter p hp hk =>
      refine ⟨fun _ => ?_, trivial⟩
      simp only [Frame.hold, hp, if_true] at hr
      exact congrArg Resources.softEnds hr
    | body input hp => exact fun _ => hs (by simp [hp])
    | hungry hp => exact hs
    | _ => trivial
  | rule f a ha h =>
    cases h with
    | call input rule success failure child hn hc => exact ⟨trivial, Frame.saves_ofRule hc⟩
    | _ => trivial

theorem Frame.Turns.resources_eq {frame : Frame}
    (h : Frame.Turns below ws result frame input turn) (hf : frame.Fits ws.grammar)
    (hr : ws.resources = frame.hold r) (hs : frame.Saves r) :
    turn.workspace.resources = turn.move.hold r := by
  cases h with
  | document f h => exact h.resources_eq hr
  | sequence f h => exact h.resources_eq hr
  | statement f h => exact h.resources_eq hr
  | block f h => exact h.resources_eq hr hs
  | rule f a ha h =>
    have hf : f.Fits ws.grammar := hf
    obtain ⟨he, hr'⟩ := RuleFrame.resources_entering hr fun hp => (hf.pushed hp).1
    exact h.resources_eq he (fun hp => ((hf.entering ws).pushed hp).2) hr'

namespace Workspace

theorem exists_popMark (hm : 0 < ws.queue.markCount) : ∃ ws₁, ws.popMark = .ok ws₁ := by
  have hne : ws.queue.marks ≠ [] := fun h => by simp [MarkedQueue.markCount, h] at hm
  obtain ⟨q, hq⟩ := MarkedQueue.exists_popMark hne
  unfold popMark
  rw [hq]
  exact ⟨_, rfl⟩

theorem exists_statementStart (hq : ws.Queued) (hm : 0 < ws.queue.markCount) (t : Term) :
    ∃ ws₁ ws₂, ws.reportStatementStart t = .ok ws₁ ∧ ws₁.popMark = .ok ws₂ := by
  have hne : ws.queue.marks ≠ [] := fun h => by simp [MarkedQueue.markCount, h] at hm
  have hs : ∃ ws₁, ws.reportStatementStart t = .ok ws₁ := by
    unfold reportStatementStart
    split
    · obtain ⟨q, h⟩ := MarkedQueue.exists_insertBeforeMark hne (ws.stamp t)
      rw [h]
      exact ⟨_, rfl⟩
    · obtain ⟨q, h⟩ := hq.uncommitted.exists_insertAtMark hne (ws.stamp t)
      rw [h]
      exact ⟨_, rfl⟩
  obtain ⟨ws₁, hs⟩ := hs
  have hcount : ws₁.queue.markCount = ws.queue.markCount :=
    congrArg Resources.marks (resources_reportStatementStart hs)
  obtain ⟨ws₂, hp⟩ := exists_popMark (hcount ▸ hm)
  exact ⟨ws₁, ws₂, hs, hp⟩

theorem exists_reportAtMark (ws : Workspace) (t : Term) : ∃ ws₁, ws.reportAtMark t = .ok ws₁ := by
  unfold reportAtMark
  split
  · next ha =>
    obtain ⟨m, hm⟩ := Option.isSome_iff_exists.1 ha
    unfold MarkedQueue.insertAtMark
    rw [hm]
    exact ⟨_, rfl⟩
  · exact ⟨_, rfl⟩

end Workspace

theorem DocumentFrame.exists_turn (f : DocumentFrame) (below : List Activation)
    (input : Cell Phrase) (hq : ws.Queued) (hr : ws.resources = (Frame.document f).hold r) :
    ∃ turn, f.step below ws input = .ok turn := by
  unfold step
  cases hp : f.phase with
  | start =>
    dsimp only
    split <;> exact ⟨_, rfl⟩
  | leading =>
    have hm : 0 < ws.queue.markCount := by
      have hc := congrArg Resources.marks hr
      simp only [Frame.hold, hp] at hc
      change ws.queue.markCount = r.marks + 1 at hc
      omega
    cases input with
    | none => exact ⟨_, rfl⟩
    | some p =>
      obtain ⟨ws₀, hpop⟩ := Workspace.exists_popMark hm
      obtain ⟨ws₁, ws₂, hs, hpop'⟩ := Workspace.exists_statementStart hq hm
        (.event .statementStart .unknown (ws.markedStart?.getD p.start))
      simp only [leading, hpop, hs]
      cases p.kind with
      | significant =>
        dsimp only
        split
        · simp only [Halt.ofMisuse, bind, Except.bind, hpop']
          exact ⟨_, rfl⟩
        · exact ⟨_, rfl⟩
      | _ => exact ⟨_, rfl⟩
  | properties => cases input <;> exact ⟨_, rfl⟩
  | expectString property => cases input <;> exact ⟨_, rfl⟩
  | selectGrammar =>
    dsimp only
    split <;> exact ⟨_, rfl⟩
  | awaitGrammar =>
    dsimp only
    split <;> exact ⟨_, rfl⟩
  | loaded => exact ⟨_, rfl⟩
  | body g context => cases input <;> exact ⟨_, rfl⟩

theorem StatementFrame.exists_turn (f : StatementFrame) (below : List Activation)
    (input : Cell Phrase) (result : CallResult) (hq : ws.Queued)
    (hf : (Frame.statement f).Fits ws.grammar) (hr : ws.resources = (Frame.statement f).hold r) :
    ∃ turn, f.step below ws input result = .ok turn := by
  unfold step
  cases hp : f.phase with
  | start => exact ⟨_, rfl⟩
  | leading =>
    have hm : 0 < ws.queue.markCount := by
      have hc := congrArg Resources.marks hr
      simp only [Frame.hold, hp, if_true] at hc
      change ws.queue.markCount = r.marks + 1 at hc
      omega
    cases input with
    | none => exact ⟨_, rfl⟩
    | some p =>
      obtain ⟨ws₀, hpop⟩ := Workspace.exists_popMark hm
      obtain ⟨ws₁, ws₂, hs, hpop'⟩ := Workspace.exists_statementStart hq hm
        (.event .statementStart .unknown (ws.markedStart?.getD p.start))
      obtain ⟨c, hc⟩ := Grammar.exists_context hf.2
      have he : ∃ entry, RuleFrame.ofContext f.grammar f.context = .ok entry := by
        unfold RuleFrame.ofContext
        rw [hc]
        exact ⟨_, rfl⟩
      obtain ⟨entry, he⟩ := he
      simp only [leading, hpop, hs]
      cases p.kind with
      | significant | startBlock =>
        simp only [Halt.ofMisuse, Halt.ofMissing, bind, Except.bind, hpop', he]
        exact ⟨_, rfl⟩
      | _ => exact ⟨_, rfl⟩
  | body => exact ⟨_, rfl⟩
  | tail => cases input <;> exact ⟨_, rfl⟩

section Votes

variable {g : Grammar} {p : Phrase} {f : RuleFrame}

def KeywordStack.Fits (s : KeywordStack) (g : Grammar) : Prop :=
  ∀ k ∈ s.contexts, k < g.keywordContexts.size

theorem KeywordStack.Fits.exists_classifyAt {s : KeywordStack} (h : s.Fits g) (depth : Nat)
    (p : Phrase) : ∃ keyword, s.classifyAt g depth p = .ok keyword := by
  unfold classifyAt
  split
  · exact ⟨_, rfl⟩
  · split
    · exact ⟨_, rfl⟩
    · next id ht =>
      refine Grammar.exists_classify (h id ?_) p
      unfold top? at ht
      split at ht
      · cases ht
      · exact List.mem_of_getElem? ht

theorem KeywordStack.Fits.exists_classify {s : KeywordStack} (h : s.Fits g) (p : Phrase) :
    ∃ answer, s.classify g p = .ok answer := by
  unfold classify
  split
  · exact ⟨_, rfl⟩
  · obtain ⟨keyword, hc⟩ := h.exists_classifyAt s.depth p
    rw [hc]
    exact ⟨_, rfl⟩

theorem exists_testVote (hb : g.Built) (p : Phrase) (keyword : Option KeywordId) {fuel : Nat}
    {id : ActionId} (hid : id < g.actions.size) :
    ∃ vote, testVote g p keyword fuel id = .ok vote := by
  induction fuel generalizing id with
  | zero => exact ⟨_, rfl⟩
  | succ fuel ih =>
    obtain ⟨a, ha⟩ := Grammar.exists_action hid
    unfold testVote
    rw [ha]
    cases a with
    | advance skipDocComments next => exact ih (hb.successor_lt ha (by simp [Action.successors]))
    | choice table => exact ih (hb.select_lt ha _ _ _)
    | _ => exact ⟨_, rfl⟩

theorem RuleFrame.Fits.exists_vote (hf : f.Fits (some g)) (hb : g.Built)
    (hk : ws.keywords.Fits g) (p : Phrase) : ∃ vote, f.vote ws p = .ok vote := by
  obtain rfl : g = f.grammar := Option.some.inj hf.grammar_eq
  unfold vote
  cases ht : f.recoveryTest with
  | none => exact ⟨_, rfl⟩
  | some test =>
    obtain ⟨keyword, hc⟩ := hk.exists_classifyAt f.keywordDepth p
    simp only [hc, bind, Except.bind]
    exact exists_testVote hb p keyword (hf.test_lt test ht)

theorem exists_voteAmong (hb : g.Built) (hk : ws.keywords.Fits g) (p : Phrase)
    (hf : ∀ a ∈ below, a.frame.Fits (some g)) : ∃ voted, voteAmong ws p below = .ok voted := by
  induction below with
  | nil => exact ⟨_, rfl⟩
  | cons a below ih =>
    obtain ⟨frame, result⟩ := a
    cases frame with
    | rule f =>
      have hfit : f.Fits (some g) := hf _ List.mem_cons_self
      obtain ⟨vote, hv⟩ := hfit.exists_vote hb hk p
      obtain ⟨voted, hvoted⟩ := ih fun b hmem => hf b (List.mem_cons_of_mem _ hmem)
      unfold voteAmong
      rw [hv]
      cases vote with
      | some resume => exact ⟨_, rfl⟩
      | none =>
        simp only [bind, Except.bind, hvoted]
        exact ⟨_, rfl⟩
    | _ => exact ⟨_, rfl⟩

theorem exists_enclosingVote (hb : g.Built) (hk : ws.keywords.Fits g) (p : Phrase)
    (hf : ∀ a ∈ below, a.frame.Fits (some g)) :
    ∃ voted, enclosingVote ws p below = .ok voted := by
  unfold enclosingVote
  split
  · exact ⟨_, rfl⟩
  · exact exists_voteAmong hb hk p hf

theorem Frame.exists_ofRule {id : RuleId} (h : id < g.rules.size) :
    ∃ child, Frame.ofRule g id = .ok child := by
  obtain ⟨rule, hr⟩ := Grammar.exists_rule h
  unfold Frame.ofRule
  rw [hr]
  simp only [bind, Except.bind]
  cases rule.body <;> exact ⟨_, rfl⟩

theorem RuleFrame.exists_leave (he : f.entered = true)
    (hr : ws.resources = (Frame.rule f).hold r) : ∃ ws₁, f.leave ws = .ok ws₁ := by
  unfold leave
  cases hm : f.marked with
  | false => exact ⟨_, rfl⟩
  | true =>
    have hpos : 0 < ws.queue.markCount := by
      have hc := congrArg Resources.marks hr
      simp only [Frame.hold, he, hm, if_true, Bool.toNat_true] at hc
      change ws.queue.markCount = r.marks + 1 at hc
      omega
    obtain ⟨ws₁, hp⟩ := Workspace.exists_popMark hpos
    simp only [if_true, hp]
    exact ⟨_, rfl⟩

theorem RuleFrame.exists_acts {a : Action} (ha : f.grammar.action f.current = .ok a)
    (hb : f.grammar.Built) (hk : ws.keywords.Fits f.grammar) (he : f.entered = true)
    (hf : ∀ a ∈ below, a.frame.Fits (some f.grammar))
    (hr : ws.resources = (Frame.rule f).hold r) (input : Cell Phrase) (result : CallResult) :
    ∃ turn, f.act below ws input result a = .ok turn := by
  cases a with
  | advance skipDocComments next =>
    cases input with
    | none => exact ⟨_, rfl⟩
    | some p =>
      simp only [act]
      split <;> exact ⟨_, rfl⟩
  | call rule success failure =>
    cases result with
    | none =>
      obtain ⟨child, hc⟩ := Frame.exists_ofRule (hb.called_lt ha)
      simp only [act, hc]
      exact ⟨_, rfl⟩
    | _ => exact ⟨_, rfl⟩
  | choice table =>
    cases input with
    | none => exact ⟨_, rfl⟩
    | some p =>
      obtain ⟨answer, hc⟩ := hk.exists_classify p
      simp only [act, hc]
      exact ⟨_, rfl⟩
  | report kind role name consume next =>
    cases input with
    | none => exact ⟨_, rfl⟩
    | some p =>
      simp only [act]
      split <;> exact ⟨_, rfl⟩
  | reportBefore kind name next =>
    obtain ⟨ws₁, hw⟩ := ws.exists_reportAtMark
      ((Term.event kind .unknown (beforePosition ws input)).named name)
    simp only [beforePosition] at hw
    simp only [act, hw]
    exact ⟨_, rfl⟩
  | reportError code args next => cases input <;> exact ⟨_, rfl⟩
  | recoveryChoice normal recovery =>
    simp only [act]
    split
    · exact ⟨_, rfl⟩
    · split
      · exact ⟨_, rfl⟩
      · cases input with
        | none => exact ⟨_, rfl⟩
        | some p =>
          obtain ⟨voted, hv⟩ := exists_enclosingVote hb hk p hf
          simp only [hv]
          cases voted <;> exact ⟨_, rfl⟩
  | done success =>
    obtain ⟨ws₁, hl⟩ := RuleFrame.exists_leave he hr
    simp only [act, hl]
    exact ⟨_, rfl⟩
  | _ => exact ⟨_, rfl⟩

theorem held_contexts_lt {stack : List Activation} (hf : ∀ a ∈ stack, a.frame.Fits (some g)) :
    ∀ k ∈ (held stack).contexts, k < g.keywordContexts.size := by
  induction stack with
  | nil => exact nofun
  | cons a below ih =>
    have hbelow := ih fun b hb => hf b (List.mem_cons_of_mem _ hb)
    have ha := hf a List.mem_cons_self
    intro k hk
    obtain ⟨frame, result⟩ := a
    cases frame with
    | rule f =>
      have hfit : f.Fits (some g) := ha
      obtain rfl : g = f.grammar := Option.some.inj hfit.grammar_eq
      simp only [held, Frame.hold] at hk
      split at hk
      · rcases List.mem_append.1 hk with hk | hk
        · split at hk
          · exact hfit.keywords_lt k (Option.mem_toList.1 hk)
          · cases hk
        · exact hbelow k hk
      · exact hbelow k hk
    | document f =>
      simp only [held, Frame.hold] at hk
      split at hk <;> exact hbelow k hk
    | sequence f => exact hbelow k hk
    | statement f =>
      simp only [held, Frame.hold] at hk
      split at hk <;> exact hbelow k hk
    | block f =>
      simp only [held, Frame.hold] at hk
      split at hk <;> exact hbelow k hk

end Votes

namespace Interpreter

variable {t : Interpreter}

theorem new_sound : new.Sound where
  shaped := trivial
  fits := fun _ ha => absurd ha List.not_mem_nil
  built := nofun
  resources := rfl
  saved := trivial
  queued := ⟨MarkedQueue.empty_sound, nofun⟩

theorem Sound.exists_turn {a : Activation} (h : t.Sound) (hs : t.stack = a :: below)
    (input : Cell Phrase) : ∃ turn, stepFrame a below t.workspace input = .ok turn := by
  have hfits := h.fits
  have hr := h.resources
  rw [hs] at hfits hr
  have ha := hfits a List.mem_cons_self
  obtain ⟨frame, result⟩ := a
  cases frame with
  | document f => exact f.exists_turn below input h.queued hr
  | sequence f => exact ⟨_, rfl⟩
  | statement f => exact f.exists_turn below input result h.queued ha hr
  | block f => exact ⟨_, rfl⟩
  | rule f =>
    have hf : f.Fits t.workspace.grammar := ha
    obtain ⟨he, hr'⟩ := RuleFrame.resources_entering hr fun hp => (hf.pushed hp).1
    have hf' := hf.entering t.workspace
    obtain ⟨a, haction⟩ := Grammar.exists_action hf'.current_lt
    have hbelow : ∀ b ∈ below, b.frame.Fits (some (f.entering t.workspace).1.grammar) := by
      rw [← hf'.grammar_eq]
      exact fun b hb => hfits b (List.mem_cons_of_mem _ hb)
    have hk : (f.entering t.workspace).2.keywords.Fits (f.entering t.workspace).1.grammar := by
      intro k hk
      have hc : (f.entering t.workspace).2.keywords.contexts =
          (held (⟨.rule (f.entering t.workspace).1, result⟩ :: below)).contexts :=
        congrArg Resources.contexts hr'
      rw [hc] at hk
      refine held_contexts_lt ?_ k hk
      intro b hb
      rcases List.mem_cons.1 hb with rfl | hb
      · exact hf'.grammar_eq ▸ hf'
      · exact hbelow b hb
    obtain ⟨turn, ht⟩ := RuleFrame.exists_acts haction (h.built _ hf'.grammar_eq) hk he hbelow hr'
      input result
    refine ⟨turn, ?_⟩
    change f.step below t.workspace input result = .ok turn
    rw [RuleFrame.step_eq, haction]
    exact ht

theorem fits_stackAfter {grammar : Option Grammar} {move : Move} (hm : move.Fits grammar)
    (hb : ∀ a ∈ below, a.frame.Fits grammar) :
    ∀ a ∈ (stackAfter move below).2, a.frame.Fits grammar := by
  have htop : ∀ (f : Frame) result, f.Fits grammar →
      ∀ a ∈ (⟨f, result⟩ :: below : List Activation), a.frame.Fits grammar := by
    intro f result hf a ha
    rcases List.mem_cons.1 ha with rfl | ha
    · exact hf
    · exact hb a ha
  cases move with
  | again f => exact htop f _ hm
  | needInput f => exact htop f _ hm
  | needResource f => exact htop f _ hm
  | call f child =>
    intro a ha
    rcases List.mem_cons.1 ha with rfl | ha
    · exact hm.2
    · exact htop f _ hm.1 a ha
  | leave result =>
    cases below with
    | nil => exact fun _ ha => absurd ha List.not_mem_nil
    | cons b below =>
      intro a ha
      rcases List.mem_cons.1 ha with rfl | ha
      · exact hb b List.mem_cons_self
      · exact hb a (List.mem_cons_of_mem _ ha)

def after (t : Interpreter) (turn : Turn) : Interpreter :=
  { t with workspace := turn.workspace, stack := (stackAfter turn.move turn.below).2 }

theorem Sound.after {a : Activation} (h : t.Sound) (hs : t.stack = a :: below)
    (ht : Frame.Turns below t.workspace a.result a.frame input turn) : (t.after turn).Sound := by
  have hshaped := h.shaped
  have hfits := h.fits
  have hr := h.resources
  have hsaved := h.saved
  rw [hs] at hshaped hfits hr hsaved
  have ha := hfits a List.mem_cons_self
  have hbelow : Saved turn.below ∧ held turn.below = held below ∧
      ∀ b ∈ turn.below, b.frame.Fits t.workspace.grammar := by
    have hb : ∀ b ∈ below, b.frame.Fits t.workspace.grammar := fun b hb =>
      hfits b (List.mem_cons_of_mem _ hb)
    rcases ht.below_eq with he | ⟨ws, p, hv⟩
    · rw [he]
      exact ⟨hsaved.2, rfl, hb⟩
    · exact ⟨hv.saved hsaved.2, hv.held_eq, hv.fits h.built hb⟩
  obtain ⟨hsb, hheld, hfb⟩ := hbelow
  have hgrammar := ht.grammar_eq
  refine ⟨ht.shaped hshaped, ?_, ?_, ?_, ?_, (ht.wraps h.queued).1⟩
  · change ∀ b ∈ (stackAfter turn.move turn.below).2, b.frame.Fits turn.workspace.grammar
    rw [hgrammar]
    exact fits_stackAfter (ht.fits h.built ha) hfb
  · change ∀ g, turn.workspace.grammar = some g → _
    rw [hgrammar]
    exact h.built
  · change turn.workspace.resources = held (stackAfter turn.move turn.below).2
    rw [held_stackAfter, hheld]
    exact ht.resources_eq ha hr hsaved.1
  · exact hsb.stackAfter (hheld ▸ ht.saves hr hsaved.1)

/-- A step of a sound interpreter does not fail, and leaves it sound. -/
theorem Sound.steps {outcome : Except Halt (Option Progress)} {t' : Interpreter}
    {input' : Cell Phrase} (h : t.Sound) (hs : Steps t input outcome t' input') :
    (∃ progress, outcome = .ok progress) ∧ t'.Sound := by
  cases hs with
  | output ho => exact ⟨⟨_, rfl⟩, h⟩
  | finish ho hs => exact ⟨⟨_, rfl⟩, h.shaped, h.fits, h.built, h.resources, h.saved, h.queued⟩
  | lose a below e ho hs he =>
    obtain ⟨turn, ht⟩ := h.exists_turn hs input
    rw [he] at ht
    cases ht
  | move a below turn ho hs ht => exact ⟨⟨_, rfl⟩, h.after hs (stepFrame_turns ht)⟩

/-- A call on a sound interpreter fails only by taking too many steps. -/
theorem Sound.run (fuel : Nat) (h : t.Sound) (input : Cell Phrase) :
    (t.run fuel input).2.1.Sound ∧
      ∀ e, (t.run fuel input).1 = .error e → e = .unfinished := by
  induction fuel generalizing t input with
  | zero => exact ⟨h, fun e he => (Except.error.inj he).symm⟩
  | succ fuel ih =>
    obtain ⟨⟨progress, hp⟩, hs⟩ := h.steps (step_steps t input)
    rw [run_succ, hp]
    cases progress with
    | some progress => exact ⟨hs, fun e he => by cases he⟩
    | none => exact ih hs _

theorem Sound.start {source : String} {t' : Interpreter} (h : t.Sound) (hn : t.stack = [])
    (hs : t.start source = .ok t') : t'.Sound := by
  unfold Interpreter.start at hs
  split at hs
  · cases hs
  · cases hs
    refine ⟨?_, ?_, h.built, ?_, ?_, h.queued.sound, h.queued.uncommitted⟩
    · rw [hn]
      exact rfl
    · intro a ha
      rw [hn] at ha
      obtain rfl := List.mem_singleton.1 ha
      exact nofun
    · rw [hn]
      have hr := h.resources
      rw [hn] at hr
      exact hr
    · rw [hn]
      exact ⟨trivial, trivial⟩

theorem Sound.withGrammar {g : Grammar} {forced : Bool} (h : t.Sound) (hb : g.Built)
    (hn : t.workspace.grammar = none) :
    Sound { t with workspace := { t.workspace with grammar := some g, forced := forced } } where
  shaped := h.shaped
  fits := fun a ha => by
    have hf := h.fits a ha
    rw [hn] at hf
    exact hf.of_none _
  built := fun g' hg => Option.some.inj hg ▸ hb
  resources := h.resources
  saved := h.saved
  queued := ⟨h.queued.sound, h.queued.uncommitted⟩

theorem forceGrammar_ok {g : Grammar} {t' : Interpreter} (h : t.forceGrammar g = .ok t') :
    t.workspace.grammar = none ∧
      t' = { t with workspace := { t.workspace with grammar := some g, forced := true } } := by
  unfold Interpreter.forceGrammar at h
  split at h
  · cases h
  · next hn => exact ⟨hn, (Except.ok.inj h).symm⟩

theorem provideGrammar_ok {g : Grammar} {t' : Interpreter} (h : t.provideGrammar g = .ok t') :
    t.workspace.grammar = none ∧
      t' = { t with workspace := { t.workspace with grammar := some g } } := by
  unfold Interpreter.provideGrammar at h
  split at h
  · cases h
  · next hn => exact ⟨hn, (Except.ok.inj h).symm⟩

theorem Sound.forceGrammar {g : Grammar} {t' : Interpreter} (h : t.Sound) (hb : g.Built)
    (hf : t.forceGrammar g = .ok t') : t'.Sound := by
  obtain ⟨hn, rfl⟩ := forceGrammar_ok hf
  exact h.withGrammar hb hn

theorem Sound.provideGrammar {g : Grammar} {t' : Interpreter} (h : t.Sound) (hb : g.Built)
    (hf : t.provideGrammar g = .ok t') : t'.Sound := by
  obtain ⟨hn, rfl⟩ := provideGrammar_ok hf
  exact h.withGrammar hb hn

/-- Whenever there is output a term can be read, and it is the first of the queue. -/
theorem Sound.exists_read (h : t.Sound) (ho : t.workspace.queue.hasOutput = true) :
    ∃ term q, t.read = .ok (term, { t with workspace := { t.workspace with queue := q } }) ∧
      t.workspace.queue.toList = term :: q.toList ∧
      Sound { t with workspace := { t.workspace with queue := q } } := by
  obtain ⟨term, q, hg, hq, hm, hl⟩ := h.queued.sound.exists_get ho
  have hread : t.read = .ok (term, { t with workspace := { t.workspace with queue := q } }) := by
    simp [Interpreter.read, ho, hg, bind, Except.bind, pure, Except.pure]
  have hmarks : t.workspace.queue.marks = [] := ((MarkedQueue.hasOutput_iff h.queued.sound).1 ho).1
  refine ⟨term, q, hread, hl, h.shaped, h.fits, h.built, ?_, h.saved, hq, ?_⟩
  · rw [← h.resources]
    simp [Workspace.resources, MarkedQueue.markCount, hm, hmarks]
  · intro m hmem
    rw [hm] at hmem
    cases hmem

theorem hasOutput_of_read {t' : Interpreter} {term : Term} (h : t.read = .ok (term, t')) :
    t.workspace.queue.hasOutput = true := by
  unfold Interpreter.read at h
  split at h
  · cases h
  · next ho => simpa using ho

theorem Sound.read_eq {t' : Interpreter} {term : Term} (h : t.Sound)
    (hr : t.read = .ok (term, t')) :
    ∃ q, t' = { t with workspace := { t.workspace with queue := q } } ∧
      t.workspace.queue.toList = term :: q.toList ∧ t.workspace.queue.marks = [] ∧
      q.marks = [] ∧ t'.Sound := by
  have ho := hasOutput_of_read hr
  obtain ⟨term', q, hread, hl, hsound⟩ := h.exists_read ho
  rw [hr] at hread
  cases hread
  have hmarks := ((MarkedQueue.hasOutput_iff h.queued.sound).1 ho).1
  refine ⟨q, rfl, hl, hmarks, ?_, hsound⟩
  have hcount : q.markCount = t.workspace.queue.markCount :=
    congrArg Resources.marks (hsound.resources.trans h.resources.symm)
  rw [MarkedQueue.markCount, MarkedQueue.markCount, hmarks] at hcount
  exact List.length_eq_zero_iff.1 hcount

end Interpreter

end TermStream
