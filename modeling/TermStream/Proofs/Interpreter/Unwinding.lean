import TermStream.Proofs.Interpreter.Sessions

namespace TermStream

def Frame.vote? : Frame → Option ActionId
  | .rule f => f.activeChoice
  | _ => none

/-- The frames of the statement that is being parsed, the one on top first. -/
def currentStatement (stack : List Activation) : List Activation :=
  stack.takeWhile fun a => a.frame.sort != .statement && a.frame.sort != .block

/-- Whether a step of the frame takes an unwind away from its voter: it calls a block, or the voter
itself is left. -/
def RuleFrame.disrupts (f : RuleFrame) (result : CallResult) : Bool :=
  match f.grammar.action f.current with
  | .ok (.call rule _ _) =>
    match Frame.ofRule f.grammar rule with
    | .ok (.block _) => result == .none
    | _ => false
  | .ok (.done _) => f.activeChoice.isSome
  | _ => false

namespace Interpreter

/-- While rules are being left, a rule of the statement that is being parsed has voted. -/
def HasVoter (t : Interpreter) : Prop :=
  t.workspace.recovering = true → ∃ a ∈ currentStatement t.stack, a.frame.vote?.isSome = true

instance (t : Interpreter) : Decidable t.HasVoter := inferInstanceAs (Decidable (_ → _))

def disrupts (t : Interpreter) : Bool :=
  t.workspace.recovering && !t.workspace.queue.hasOutput &&
    match t.stack with
    | ⟨.rule f, result⟩ :: _ => f.disrupts result
    | _ => false

end Interpreter

def Calm (stack : List Activation) : Prop := ∀ a ∈ stack, a.frame.vote? = none

/-- One frame has voted, and all frames on top of it are rules. -/
inductive Unwinding : List Activation → Prop where
  | here (f : RuleFrame) (result : CallResult) {below : List Activation}
      (hv : f.activeChoice.isSome = true) (hb : Calm below) : Unwinding (⟨.rule f, result⟩ :: below)
  | there (f : RuleFrame) (result : CallResult) {below : List Activation}
      (hv : f.activeChoice = none) (h : Unwinding below) : Unwinding (⟨.rule f, result⟩ :: below)

/-- Rules are being left if and only if one of them has voted. -/
def VotesAgree (recovering : Bool) (stack : List Activation) : Prop :=
  if recovering then Unwinding stack else Calm stack

theorem Calm.cons {a : Activation} {below : List Activation} (ha : a.frame.vote? = none)
    (hb : Calm below) : Calm (a :: below) := by
  intro b hmem
  rcases List.mem_cons.1 hmem with rfl | hmem
  · exact ha
  · exact hb b hmem

theorem Calm.below {a : Activation} {below : List Activation} (h : Calm (a :: below)) :
    Calm below := fun b hb => h b (List.mem_cons_of_mem _ hb)

theorem Calm.deliver {result : CallResult} {stack : List Activation} (h : Calm stack) :
    Calm (Interpreter.deliver result stack) := by
  cases stack with
  | nil => exact h
  | cons a below => exact .cons (h a List.mem_cons_self) h.below

theorem Unwinding.deliver {result : CallResult} {stack : List Activation} (h : Unwinding stack) :
    Unwinding (Interpreter.deliver result stack) := by
  cases h with
  | here f r hv hb => exact .here f result hv hb
  | there f r hv h => exact .there f result hv h

theorem Unwinding.replace {f f' : RuleFrame} {result result' : CallResult}
    {below : List Activation} (h : Unwinding (⟨.rule f, result⟩ :: below))
    (hf : f'.activeChoice = f.activeChoice) : Unwinding (⟨.rule f', result'⟩ :: below) := by
  cases h with
  | here _ _ hv hb => exact .here f' result' (hf ▸ hv) hb
  | there _ _ hv h => exact .there f' result' (hf.trans hv) h

theorem Unwinding.exists_voter {stack : List Activation} (h : Unwinding stack) :
    ∃ a ∈ currentStatement stack, a.frame.vote?.isSome = true := by
  induction h with
  | here f result hv hb => exact ⟨⟨.rule f, result⟩, List.mem_cons_self, hv⟩
  | there f result hv h ih =>
    obtain ⟨a, ha, hvote⟩ := ih
    exact ⟨a, List.mem_cons_of_mem _ ha, hvote⟩

theorem Unwinding.head_sort {stack : List Activation} {a : Activation} (h : Unwinding stack)
    (ha : a ∈ stack.head?) : a.frame.sort = .rule := by
  cases h with
  | here f result hv hb => cases ha; rfl
  | there f result hv h => cases ha; rfl

/-- A vote among calm frames leads to an unwind. -/
theorem Voted.unwinding {ws : Workspace} {p : Phrase} {below below' : List Activation}
    (h : Voted ws p below below') (hb : Calm below) : Unwinding below' := by
  induction h with
  | here f result below resume hv => exact .here _ result rfl hb.below
  | there f result hv h ih =>
    exact .there f result (hb ⟨.rule f, result⟩ List.mem_cons_self) (ih hb.below)

namespace Workspace

variable {ws ws₁ : Workspace} {t : Term}

theorem recovering_popMark (h : ws.popMark = .ok ws₁) : ws₁.recovering = ws.recovering := by
  obtain ⟨q, -, rfl⟩ := popMark_ok h
  rfl

theorem recovering_reportAtMark (h : ws.reportAtMark t = .ok ws₁) :
    ws₁.recovering = ws.recovering := by
  rcases reportAtMark_ok h with rfl | ⟨q, -, rfl⟩ <;> rfl

theorem recovering_reportStatementStart (h : ws.reportStatementStart t = .ok ws₁) :
    ws₁.recovering = ws.recovering := by
  obtain ⟨q, -, rfl⟩ := reportStatementStart_ok h
  rfl

end Workspace

theorem DocumentFrame.recovering_chooseContext (f : DocumentFrame) (ws : Workspace)
    (g g' : Grammar) : (f.chooseContext (announce ws g) g').2.recovering = ws.recovering := by
  have ha : (announce ws g).recovering = ws.recovering := by
    unfold announce
    split
    · dsimp only
      split <;> rfl
    · rfl
  unfold chooseContext
  split
  · exact ha
  · split <;> exact ha

namespace RuleFrame

variable (f : RuleFrame) (ws : Workspace)

theorem recovering_dropKeywords : (f.dropKeywords ws).2.recovering = ws.recovering := by
  unfold dropKeywords
  split <;> rfl

theorem activeChoice_dropKeywords : (f.dropKeywords ws).1.activeChoice = f.activeChoice := by
  unfold dropKeywords
  split <;> rfl

theorem recovering_entering : (f.entering ws).2.recovering = ws.recovering := by
  unfold entering
  split
  · rfl
  · unfold enter
    cases f.marked <;> cases f.keywords <;> cases f.disablesSoftEnd <;> rfl

theorem activeChoice_entering : (f.entering ws).1.activeChoice = f.activeChoice := by
  unfold entering
  split <;> rfl

theorem recovering_leave {ws₁ : Workspace} (h : f.leave ws = .ok ws₁) :
    ws₁.recovering = ws.recovering := by
  obtain ⟨ws₀, hm, rfl⟩ := leave_ok h
  have hw : ws₀.recovering = ws.recovering := by
    rcases hm with ⟨-, hp⟩ | ⟨-, rfl⟩
    · exact Workspace.recovering_popMark hp
    · rfl
  split <;> exact (f.recovering_dropKeywords ws₀).trans hw

end RuleFrame

def Move.Calm : Move → Prop
  | .again f | .needInput f | .needResource f => f.vote? = none
  | .call f child => f.vote? = none ∧ child.vote? = none
  | .leave _ => True

theorem Calm.stackAfter {move : Move} {below : List Activation} (hb : Calm below)
    (hm : move.Calm) : Calm (Interpreter.stackAfter move below).2 := by
  cases move with
  | again f => exact .cons hm hb
  | needInput f => exact .cons hm hb
  | needResource f => exact .cons hm hb
  | call f child => exact .cons hm.2 (.cons hm.1 hb)
  | leave result => exact hb.deliver

theorem RuleFrame.activeChoice_ofContext {g : Grammar} {id : ContextId} {f : RuleFrame}
    (h : RuleFrame.ofContext g id = .ok f) : f.activeChoice = none := by
  unfold RuleFrame.ofContext at h
  cases hc : g.context id with
  | error m => rw [hc] at h; cases h
  | ok c => rw [hc] at h; cases h; rfl

theorem Frame.vote?_ofRule {g : Grammar} {id : RuleId} {f : Frame} (h : Frame.ofRule g id = .ok f) :
    f.vote? = none := by
  unfold Frame.ofRule at h
  cases hr : g.rule id with
  | error m => rw [hr] at h; cases h
  | ok rule =>
    simp only [hr, bind, Except.bind] at h
    cases hb : rule.body with
    | actions entry => simp only [hb] at h; cases h; rfl
    | block context => simp only [hb] at h; cases h; rfl

section
variable {below : List Activation} {ws : Workspace} {input : Cell Phrase} {turn : Turn}
  {result : CallResult}

theorem Frame.Turns.calm_of_sort {frame : Frame}
    (h : Frame.Turns below ws result frame input turn) (hs : frame.sort ≠ .rule)
    (hr : ws.recovering = false) :
    turn.below = below ∧ turn.workspace.recovering = false ∧ turn.move.Calm := by
  cases h with
  | document f h =>
    cases h with
    | declare p ws₁ ws₂ hp hk hw hs hm =>
      refine ⟨rfl, ?_, rfl⟩
      exact (Workspace.recovering_popMark hm).trans
        ((Workspace.recovering_reportStatementStart hs).trans hr)
    | select p ws₁ hp hk hw hm => exact ⟨rfl, (Workspace.recovering_popMark hm).trans hr, rfl⟩
    | load input g hp hg => exact ⟨rfl, (f.recovering_chooseContext ws g g).trans hr, rfl, rfl⟩
    | stray p g context hp hk => exact ⟨rfl, hr, rfl, rfl⟩
    | close p g context hp hk => exact ⟨rfl, hr, trivial⟩
    | _ => exact ⟨rfl, hr, rfl⟩
  | sequence f h =>
    cases h with
    | close p hk => exact ⟨rfl, hr, trivial⟩
    | statement p hk => exact ⟨rfl, hr, rfl, rfl⟩
    | _ => exact ⟨rfl, hr, rfl⟩
  | statement f h =>
    cases h with
    | giveUp p ws₁ hp hk hm => exact ⟨rfl, (Workspace.recovering_popMark hm).trans hr, trivial⟩
    | enter p ws₁ ws₂ entry hp hk hs hm he =>
      refine ⟨rfl, ?_, rfl, RuleFrame.activeChoice_ofContext he⟩
      exact (Workspace.recovering_popMark hm).trans
        ((Workspace.recovering_reportStatementStart hs).trans hr)
    | body input hp => exact ⟨rfl, rfl, rfl⟩
    | finish p role hp hk hrole => exact ⟨rfl, hr, trivial⟩
    | breakOff p hp hk => exact ⟨rfl, hr, trivial⟩
    | block p hp hk => exact ⟨rfl, hr, rfl, rfl⟩
    | leftover p first hp hk hf => cases first <;> exact ⟨rfl, hr, rfl⟩
    | _ => exact ⟨rfl, hr, rfl⟩
  | block f h =>
    cases h with
    | enter p hp hk => exact ⟨rfl, hr, rfl, rfl⟩
    | refuse p hp hk => exact ⟨rfl, hr, trivial⟩
    | close p hp hk => exact ⟨rfl, hr, trivial⟩
    | breakOff p hp hk => exact ⟨rfl, hr, trivial⟩
    | _ => exact ⟨rfl, hr, rfl⟩
  | rule f a ha h => exact absurd rfl hs

namespace RuleFrame

variable {f : RuleFrame} {a : Action}

/-- Without an unwind an action leaves all frames calm, unless an enclosing rule votes. -/
theorem Acts.agree_of_calm (h : f.Acts below ws result a input turn) (hf : f.activeChoice = none)
    (hb : Calm below) (hr : ws.recovering = false) :
    VotesAgree turn.workspace.recovering (Interpreter.stackAfter turn.move turn.below).2 := by
  have calm : ∀ turn : Turn, turn.below = below → turn.workspace.recovering = false →
      turn.move.Calm →
      VotesAgree turn.workspace.recovering (Interpreter.stackAfter turn.move turn.below).2 := by
    intro turn hbelow hr hm
    rw [hr, hbelow]
    exact hb.stackAfter hm
  cases h with
  | call input rule success failure child hres hc =>
    exact calm _ rfl hr ⟨hf, Frame.vote?_ofRule hc⟩
  | before input kind name next ws₁ hw =>
    exact calm _ rfl ((Workspace.recovering_reportAtMark hw).trans hr) hf
  | resume input normal recovery hc => rw [hf] at hc; cases hc
  | unwind input normal recovery hc hw => rw [hr] at hw; cases hw
  | recover p normal recovery below' hc hw hv =>
    exact .there _ _ hf ((enclosingVote_voted hv).2.unwinding hb)
  | popKeywords input next =>
    exact calm _ rfl ((f.recovering_dropKeywords ws).trans hr)
      ((f.activeChoice_dropKeywords ws).trans hf)
  | done input success ws₁ hl => exact calm _ rfl ((f.recovering_leave ws hl).trans hr) trivial
  | _ => exact calm _ rfl hr hf

/-- During an unwind an action leads on to the voter, or is the choice of the voter. -/
theorem Acts.agree_of_unwinding (h : f.Acts below ws result a input turn)
    (ha : f.grammar.action f.current = .ok a) (hd : f.disrupts result = false)
    (hu : Unwinding (⟨.rule f, result⟩ :: below)) (hr : ws.recovering = true) :
    VotesAgree turn.workspace.recovering (Interpreter.stackAfter turn.move turn.below).2 := by
  have unwinding : ∀ recovering stack, recovering = true → Unwinding stack →
      VotesAgree recovering stack := by
    rintro _ stack rfl h
    exact h
  cases h with
  | call input rule success failure child hres hc =>
    cases child with
    | rule child =>
      exact unwinding _ _ hr (.there child .none (Frame.vote?_ofRule hc) (hu.replace rfl))
    | block child => simp [disrupts, ha, hc, hres] at hd
    | _ => rcases Frame.sort_ofRule hc with hs | hs <;> cases hs
  | before input kind name next ws₁ hw =>
    exact unwinding _ _ ((Workspace.recovering_reportAtMark hw).trans hr) (hu.replace rfl)
  | resume input normal recovery hc =>
    cases hu with
    | here _ _ hv hb => exact .cons rfl hb
    | there _ _ hv h => rw [hc] at hv; cases hv
  | recover p normal recovery below' hc hw hv => rw [hr] at hw; cases hw
  | normal p normal recovery hc hw hv => rw [hr] at hw; cases hw
  | popKeywords input next =>
    exact unwinding _ _ ((f.recovering_dropKeywords ws).trans hr)
      (hu.replace (f.activeChoice_dropKeywords ws))
  | done input success ws₁ hl =>
    cases hu with
    | here _ _ hv hb => simp [disrupts, ha, hv] at hd
    | there _ _ hv h => exact unwinding _ _ ((f.recovering_leave ws hl).trans hr) h.deliver
  | _ => exact unwinding _ _ hr (hu.replace rfl)

theorem disrupts_cases (h : f.disrupts result = true) :
    (∃ rule success failure block, f.grammar.action f.current = .ok (.call rule success failure) ∧
        Frame.ofRule f.grammar rule = .ok (.block block) ∧ result = .none) ∨
      ∃ success, f.grammar.action f.current = .ok (.done success) ∧
        f.activeChoice.isSome = true := by
  unfold disrupts at h
  split at h
  · next rule success failure ha =>
    split at h
    · next block hc => exact .inl ⟨rule, success, failure, block, ha, hc, by simpa using h⟩
    · cases h
  · next success ha => exact .inr ⟨success, ha, h⟩
  · cases h

/-- A step that disrupts an unwind leaves a state without a voter. -/
theorem Acts.no_voter (h : f.Acts below ws result a input turn)
    (ha : f.grammar.action f.current = .ok a) (hd : f.disrupts result = true)
    (hu : Unwinding (⟨.rule f, result⟩ :: below)) :
    turn.workspace.recovering = ws.recovering ∧
      ∀ b ∈ currentStatement (Interpreter.stackAfter turn.move turn.below).2,
        b.frame.vote? = none := by
  rcases disrupts_cases hd with
    ⟨rule, success, failure, block, hcall, hc, hres⟩ | ⟨success, hdone, hv⟩
  · obtain rfl := Except.ok.inj (ha.symm.trans hcall)
    cases h with
    | hungry _ hreads => exact hreads.elim
    | call _ _ _ _ child _ hchild =>
      obtain rfl := Except.ok.inj (hchild.symm.trans hc)
      exact ⟨rfl, List.forall_mem_nil _⟩
    | success _ _ _ _ hs => rw [hres] at hs; cases hs
    | failure _ _ _ _ hs => rw [hres] at hs; cases hs
  · obtain rfl := Except.ok.inj (ha.symm.trans hdone)
    cases h with
    | hungry _ hreads => exact hreads.elim
    | done _ _ ws₁ hl =>
      refine ⟨f.recovering_leave ws hl, fun b hb => ?_⟩
      cases hu with
      | here _ _ _ hbelow => exact hbelow.deliver b (List.takeWhile_subset _ hb)
      | there _ _ hn _ => rw [hn] at hv; cases hv

theorem current_entering (f : RuleFrame) (ws : Workspace) :
    (f.entering ws).1.current = f.current := by
  unfold entering
  split <;> rfl

theorem disrupts_entering (f : RuleFrame) (ws : Workspace) (result : CallResult) :
    (f.entering ws).1.disrupts result = f.disrupts result := by
  simp only [disrupts, grammar_entering, current_entering, activeChoice_entering]

end RuleFrame
end

namespace Interpreter

variable {t : Interpreter} {input : Cell Phrase}

def Agrees (t : Interpreter) : Prop := VotesAgree t.workspace.recovering t.stack

theorem Agrees.hasVoter (h : t.Agrees) : t.HasVoter := by
  intro hr
  rw [Agrees, hr] at h
  exact Unwinding.exists_voter h

theorem Agrees.step (h : t.Agrees) (hs : t.Sound) (hd : t.disrupts = false) :
    (t.step input).2.1.Agrees := by
  have hsteps := step_steps t input
  have hok := (hs.steps hsteps).1
  generalize t.step input = r at hsteps hok ⊢
  obtain ⟨outcome, t', input'⟩ := r
  cases hsteps with
  | output ho => exact h
  | finish ho hstack => exact h
  | lose a below e ho hstack he =>
    obtain ⟨progress, hp⟩ := hok
    cases hp
  | move a below turn ho hstack ht =>
    -- A frame that is no rule comes to run only while no rule is being left.
    change VotesAgree turn.workspace.recovering (stackAfter turn.move turn.below).2
    obtain ⟨frame, result⟩ := a
    have hturn := stepFrame_turns ht
    rw [Agrees, hstack] at h
    rw [disrupts, hstack, ho] at hd
    cases hr : t.workspace.recovering with
    | false =>
      rw [hr] at h
      have hcalm : Calm (⟨frame, result⟩ :: below) := h
      by_cases hsort : frame.sort = .rule
      · cases hturn with
        | rule f a ha hacts =>
          refine hacts.agree_of_calm ?_ hcalm.below ((f.recovering_entering _).trans hr)
          exact (f.activeChoice_entering _).trans (hcalm _ List.mem_cons_self)
        | _ => cases hsort
      · obtain ⟨hbelow, hrec, hm⟩ := hturn.calm_of_sort hsort hr
        rw [hbelow, hrec]
        exact hcalm.below.stackAfter hm
    | true =>
      rw [hr] at h hd
      have hu : Unwinding (⟨frame, result⟩ :: below) := h
      obtain ⟨f, rfl⟩ : ∃ f, frame = .rule f := by cases hu <;> exact ⟨_, rfl⟩
      cases hturn with
      | rule _ a ha hacts =>
        refine hacts.agree_of_unwinding ha ((f.disrupts_entering _ result).trans hd) ?_
          ((f.recovering_entering _).trans hr)
        exact hu.replace (f.activeChoice_entering _)

theorem Agrees.not_hasVoter (h : t.Agrees) (hs : t.Sound) (hd : t.disrupts = true) :
    ¬ (t.step input).2.1.HasVoter := by
  have hsteps := step_steps t input
  have hok := (hs.steps hsteps).1
  generalize t.step input = r at hsteps hok ⊢
  obtain ⟨outcome, t', input'⟩ := r
  simp only [disrupts, Bool.and_eq_true, Bool.not_eq_true'] at hd
  obtain ⟨⟨hr, hqueue⟩, hd⟩ := hd
  cases hsteps with
  | output ho => rw [hqueue] at ho; cases ho
  | finish ho hstack => rw [hstack] at hd; cases hd
  | lose a below e ho hstack he =>
    obtain ⟨progress, hp⟩ := hok
    cases hp
  | move a below turn ho hstack ht =>
    obtain ⟨frame, result⟩ := a
    have hturn := stepFrame_turns ht
    rw [Agrees, hstack, hr] at h
    rw [hstack] at hd
    have hu : Unwinding (⟨frame, result⟩ :: below) := h
    obtain ⟨f, rfl⟩ : ∃ f, frame = .rule f := by cases hu <;> exact ⟨_, rfl⟩
    cases hturn with
    | rule _ a ha hacts =>
      obtain ⟨hflag, hnone⟩ := hacts.no_voter ha ((f.disrupts_entering _ result).trans hd)
        (hu.replace (f.activeChoice_entering _))
      intro hvoter
      obtain ⟨b, hb, hv⟩ := hvoter (hflag.trans ((f.recovering_entering _).trans hr))
      rw [hnone b hb] at hv
      cases hv

/-- The states of a call to work: it steps from each of them but the last. -/
def visited : Nat → Interpreter → Cell Phrase → List Interpreter
  | 0, t, _ => [t]
  | fuel + 1, t, input =>
    t :: match t.step input with
      | (.ok none, t, input) => visited fuel t input
      | (_, t, _) => [t]

theorem visited_ne_nil (fuel : Nat) (t : Interpreter) (input : Cell Phrase) :
    t.visited fuel input ≠ [] := by
  cases fuel <;> exact List.cons_ne_nil _ _

theorem mem_visited (fuel : Nat) (t : Interpreter) (input : Cell Phrase) :
    t ∈ t.visited fuel input := by
  cases fuel <;> exact List.mem_cons_self

theorem visited_succ (fuel : Nat) (t : Interpreter) (input : Cell Phrase) :
    ∃ n ≤ fuel, t.visited (fuel + 1) input =
      t :: (t.step input).2.1.visited n (t.step input).2.2 ∧
      (t.run (fuel + 1) input).2 = ((t.step input).2.1.run n (t.step input).2.2).2 := by
  rw [visited, run]
  rcases t.step input with ⟨_ | _ | progress, t', input'⟩
  · exact ⟨0, fuel.zero_le, rfl, rfl⟩
  · exact ⟨fuel, Nat.le_refl fuel, rfl, rfl⟩
  · exact ⟨0, fuel.zero_le, rfl, rfl⟩

theorem run_mem_visited (fuel : Nat) (t : Interpreter) (input : Cell Phrase) :
    (t.run fuel input).2.1 ∈ t.visited fuel input := by
  induction fuel using Nat.strongRecOn generalizing t input with
  | ind fuel ih =>
    cases fuel with
    | zero => exact List.mem_singleton_self t
    | succ fuel =>
      obtain ⟨n, hn, hv, hr⟩ := visited_succ fuel t input
      rw [hv, hr]
      exact List.mem_cons_of_mem _ (ih n (Nat.lt_succ_of_le hn) _ _)

/-- If every state of a run has a voter, or no step of it disrupts an unwind, then both hold, and
the agreement lasts. -/
theorem Agrees.run {fuel : Nat} (h : t.Agrees) (hs : t.Sound)
    (hor : (∀ t' ∈ t.visited fuel input, t'.HasVoter) ∨
      ∀ t' ∈ (t.visited fuel input).dropLast, t'.disrupts = false) :
    (∀ t' ∈ (t.visited fuel input).dropLast, t'.disrupts = false) ∧
      ∀ t' ∈ t.visited fuel input, t'.Agrees := by
  induction fuel using Nat.strongRecOn generalizing t input with
  | ind fuel ih =>
    cases fuel with
    | zero => exact ⟨List.forall_mem_nil _, fun t' ht => List.mem_singleton.1 ht ▸ h⟩
    | succ fuel =>
      obtain ⟨n, hn, hv, -⟩ := visited_succ fuel t input
      have hsound := (hs.steps (step_steps t input)).2
      rw [hv, List.dropLast_cons_of_ne_nil (visited_ne_nil n _ _)] at hor ⊢
      -- Whichever of the two is assumed, this step disrupts nothing.
      have hd : t.disrupts = false := by
        rcases hor with hvoters | hnone
        · cases hd : t.disrupts with
          | false => rfl
          | true =>
            have hnext := hvoters _ (List.mem_cons_of_mem _ (mem_visited n _ _))
            exact absurd hnext (h.not_hasVoter hs hd)
        · exact hnone t List.mem_cons_self
      have hrest := hor.imp (fun hvoters t' ht => hvoters t' (List.mem_cons_of_mem _ ht))
        (fun hnone t' ht => hnone t' (List.mem_cons_of_mem _ ht))
      obtain ⟨hnone, hagree⟩ := ih n (Nat.lt_succ_of_le hn) (h.step hs hd) hsound hrest
      exact ⟨List.forall_mem_cons.2 ⟨hd, hnone⟩, List.forall_mem_cons.2 ⟨h, hagree⟩⟩

namespace Session

/-- The states that a call visits after the one it starts in. A call to work also visits that one,
and it steps from each but the last. -/
def visitedBy (s : Session) : Call → List Interpreter
  | .parse fuel =>
    if !s.interpreter.started || s.interpreter.finished then [s.interpreter]
    else s.interpreter.visited fuel s.cell
  | call => [(s.perform call).interpreter]

def visited (s : Session) : List Call → List Interpreter
  | [] => [s.interpreter]
  | call :: calls => s.visitedBy call ++ (s.perform call).visited calls

def stepped (s : Session) : List Call → List Interpreter
  | [] => []
  | call :: calls => (s.visitedBy call).dropLast ++ (s.perform call).stepped calls

variable {s : Session}

theorem agrees_accept {result : Except Misuse Interpreter} (h : s.interpreter.Agrees)
    (ht : ∀ t, result = .ok t → t.Agrees) : (s.accept result).interpreter.Agrees := by
  cases result with
  | error m => exact h
  | ok t => exact ht t rfl

theorem agrees_perform {call : Call} (h : s.interpreter.Agrees) (hs : s.Sound)
    (hc : ∀ fuel, call ≠ .parse fuel) : (s.perform call).interpreter.Agrees := by
  cases call with
  | parse fuel => exact absurd rfl (hc fuel)
  | put p =>
    rw [perform, put]
    split <;> exact h
  | start source =>
    refine agrees_accept h fun t ht => ?_
    unfold Interpreter.start at ht
    split at ht
    · cases ht
    · next hstarted =>
      cases ht
      have hnil := hs.unstarted (by simpa using hstarted)
      rw [Agrees, hnil] at h
      change VotesAgree s.interpreter.workspace.recovering (_ :: s.interpreter.stack)
      cases hr : s.interpreter.workspace.recovering with
      | false => rw [hnil]; exact .cons rfl (List.forall_mem_nil _)
      | true => rw [hr] at h; cases h
  | force g =>
    refine agrees_accept h fun t ht => ?_
    unfold forceGrammar at ht
    split at ht <;> cases ht
    exact h
  | provide g =>
    refine agrees_accept h fun t ht => ?_
    unfold provideGrammar at ht
    split at ht <;> cases ht
    exact h
  | read =>
    rw [perform, Session.read]
    cases ho : s.interpreter.workspace.queue.hasOutput with
    | false =>
      have he : s.interpreter.read = .error (.nothingToRead .terms) := by
        simp [Interpreter.read, ho]
      rw [he]
      exact h
    | true =>
      obtain ⟨term, q, hr, -, -⟩ := hs.interpreter.exists_read ho
      rw [hr]
      exact h

theorem visitedBy_eq {call : Call} (s : Session) (hc : ∀ fuel, call ≠ .parse fuel) :
    s.visitedBy call = [(s.perform call).interpreter] := by
  cases call with
  | parse fuel => exact absurd rfl (hc fuel)
  | _ => rfl

theorem visitedBy_parse (s : Session) (fuel : Nat) :
    (s.visitedBy (.parse fuel) = [s.interpreter] ∧
        (s.perform (.parse fuel)).interpreter = s.interpreter) ∨
      (s.visitedBy (.parse fuel) = s.interpreter.visited fuel s.cell ∧
        (s.perform (.parse fuel)).interpreter = (s.interpreter.run fuel s.cell).2.1) := by
  simp only [visitedBy, perform, Session.parse, Interpreter.parse]
  cases s.interpreter.started with
  | false => exact .inl ⟨rfl, rfl⟩
  | true =>
    cases s.interpreter.finished with
    | true => exact .inl ⟨rfl, rfl⟩
    | false => exact .inr ⟨rfl, rfl⟩

theorem agrees_visitedBy {call : Call} (h : s.interpreter.Agrees) (hs : s.Sound)
    (hor : (∀ t ∈ s.visitedBy call, t.HasVoter) ∨
      ∀ t ∈ (s.visitedBy call).dropLast, t.disrupts = false) :
    (∀ t ∈ (s.visitedBy call).dropLast, t.disrupts = false) ∧
      (∀ t ∈ s.visitedBy call, t.Agrees) ∧ (s.perform call).interpreter.Agrees := by
  have single : ∀ t : Interpreter, t.Agrees → (∀ t' ∈ [t].dropLast, t'.disrupts = false) ∧
      (∀ t' ∈ [t], t'.Agrees) ∧ t.Agrees := fun t ht =>
    ⟨List.forall_mem_nil _, fun t' hmem => List.mem_singleton.1 hmem ▸ ht, ht⟩
  by_cases hc : ∀ fuel, call ≠ .parse fuel
  · rw [visitedBy_eq s hc]
    exact single _ (agrees_perform h hs hc)
  · obtain ⟨fuel, rfl⟩ : ∃ fuel, call = .parse fuel := by
      simpa using hc
    rcases visitedBy_parse s fuel with ⟨hv, hp⟩ | ⟨hv, hp⟩
    · rw [hv, hp]
      exact single _ h
    · rw [hv] at hor
      rw [hv, hp]
      obtain ⟨hnone, hagree⟩ := h.run hs.interpreter hor
      exact ⟨hnone, hagree, hagree _ (run_mem_visited fuel s.interpreter s.cell)⟩

theorem agrees_visited {calls : List Call} (h : s.interpreter.Agrees) (hs : s.Sound)
    (hb : ∀ call ∈ calls, call.Builds)
    (hor : (∀ t ∈ s.visited calls, t.HasVoter) ∨ ∀ t ∈ s.stepped calls, t.disrupts = false) :
    (∀ t ∈ s.stepped calls, t.disrupts = false) ∧ ∀ t ∈ s.visited calls, t.Agrees := by
  induction calls generalizing s with
  | nil => exact ⟨List.forall_mem_nil _, fun t ht => List.mem_singleton.1 ht ▸ h⟩
  | cons call calls ih =>
    simp only [visited, stepped, List.forall_mem_append] at hor ⊢
    obtain ⟨hnone, hagree, hnext⟩ :=
      agrees_visitedBy h hs (hor.imp And.left And.left)
    obtain ⟨hnone', hagree'⟩ := ih hnext (hs.perform (hb call List.mem_cons_self))
      (fun c hc => hb c (List.mem_cons_of_mem _ hc)) (hor.imp And.right And.right)
    exact ⟨⟨hnone, hnone'⟩, hagree, hagree'⟩

/-- In a session with built grammars, a rule of the current statement has voted whenever rules are
being left, if and only if no step on the way calls a block while rules are being left or leaves a
rule that has voted. Then all frames down to that rule are rules: no statement comes to run, and
none ends, while rules are being left. -/
theorem voters_iff_undisrupted (calls : List Call) (hb : ∀ call ∈ calls, call.Builds) :
    ((∀ t ∈ new.visited calls, t.HasVoter) ↔ ∀ t ∈ new.stepped calls, t.disrupts = false) ∧
      ((∀ t ∈ new.stepped calls, t.disrupts = false) → ∀ t ∈ new.visited calls,
        t.workspace.recovering = true → ∀ a ∈ t.stack.head?, a.frame.sort = .rule) := by
  have hnew : new.interpreter.Agrees := List.forall_mem_nil _
  have h := agrees_visited hnew new_sound hb
  refine ⟨⟨fun hv => (h (.inl hv)).1, fun hn t ht => ((h (.inr hn)).2 t ht).hasVoter⟩, ?_⟩
  intro hn t ht hr a ha
  have hagree := (h (.inr hn)).2 t ht
  rw [Agrees, hr] at hagree
  exact Unwinding.head_sort hagree ha

end Session

/-- A grammar in which an inner rule asks for recovery at a brace. On the way to the rule that has
voted, it calls a block and comes to another choice, and so do the statements of the block. -/
def nestingGrammar : Grammar where
  systemId := "nesting"
  isScript := true
  actions := #[
    .recoverySetup 4 1,
    .call 0 2 2,
    .recoveryChoice 3 3,
    .done true,
    .choice ⟨[(.startBlock, 5)], [], [], 3⟩,
    .recoveryVote 2 3,
    .recoveryChoice 3 7,
    .call 1 8 8,
    .recoveryChoice 9 10,
    .report .value .primary none false 3,
    .report .value .skipped none false 3,
    .recoveryChoice 12 13,
    .report .value .primary none true 3,
    .report .value .skipped none true 3]
  rules := #[⟨"inner", .actions 6, false, none, false⟩, ⟨"braces", .block 1, false, none, false⟩]
  contexts := #[⟨"outer", 0, none⟩, ⟨"nested", 11, none⟩]
  defaultContext := 0
  keywords := #[]
  keywordContexts := #[]
  errors := .nil

def unwindingCalls : List Call :=
  [.start "in", .force nestingGrammar,
    .put (.ofToken .startBlock ⟨.simple .leftCurly, "\x7b", .start, ⟨1, 2, 1⟩, .nil⟩),
    .parse 9, .read, .parse 3]

def nestedCalls : List Call :=
  [.parse 3, .read,
    .put (.ofToken .significant ⟨.simple .identifier, "x", ⟨1, 2, 1⟩, ⟨1, 3, 2⟩, .nil⟩), .parse 1]

def endingCalls : List Call := [.parse 3, .read, .parse 2, .read, .parse 2]

theorem nestingGrammar_built : nestingGrammar.Built := Grammar.built_of_dangling? rfl

/-- Up to the vote nothing is disrupted, and then the statement has the voter. -/
theorem Session.voters_iff_undisrupted_vote :
    (∀ call ∈ unwindingCalls, call.Builds) ∧
      (Session.new.performAll unwindingCalls).interpreter.workspace.recovering = true ∧
      ∀ t ∈ Session.new.visited unwindingCalls, t.HasVoter := by
  have hb : ∀ call ∈ unwindingCalls, call.Builds := by
    simp [unwindingCalls, Call.Builds, nestingGrammar_built]
  have hnone : ∀ t ∈ Session.new.stepped unwindingCalls, t.disrupts = false := by decide +kernel
  exact ⟨hb, by decide +kernel, (Session.voters_iff_undisrupted unwindingCalls hb).1.2 hnone⟩

/-- A block that is called on the way hands the unwind on to its statements, where nobody has voted,
and the end of their actions cancels it while the vote of the outer statement is still pending. -/
theorem Session.unwind_enters_block :
    let t := (Session.new.performAll (unwindingCalls ++ nestedCalls)).interpreter
    let t' := (Session.new.performAll (unwindingCalls ++ nestedCalls ++ endingCalls)).interpreter
    (∀ call ∈ unwindingCalls ++ nestedCalls ++ endingCalls, call.Builds) ∧
      t.stack.map (fun a => a.frame.sort) =
        [.statement, .sequence, .block, .rule, .rule, .statement, .sequence, .document] ∧
      t.workspace.recovering = true ∧ ¬ t.HasVoter ∧
      t'.workspace.recovering = false ∧ t'.stack.filterMap (fun a => a.frame.vote?) = [2] := by
  intro t t'
  have hb : ∀ call ∈ unwindingCalls ++ nestedCalls ++ endingCalls, call.Builds := by
    simp [unwindingCalls, nestedCalls, endingCalls, Call.Builds, nestingGrammar_built]
  have ht : t.stack.map (fun a => a.frame.sort) =
      [.statement, .sequence, .block, .rule, .rule, .statement, .sequence, .document] ∧
      t.workspace.recovering = true ∧ ¬ t.HasVoter := by decide +kernel
  have ht' : t'.workspace.recovering = false ∧
      t'.stack.filterMap (fun a => a.frame.vote?) = [2] := by decide +kernel
  exact ⟨hb, ht.1, ht.2.1, ht.2.2, ht'⟩

end Interpreter

end TermStream
