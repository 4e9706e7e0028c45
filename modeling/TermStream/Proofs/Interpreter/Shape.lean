import TermStream.Proofs.Grammar.Closed
import TermStream.Proofs.Interpreter.Resources

namespace TermStream

inductive FrameSort where
  | document
  | sequence
  | statement
  | block
  | rule
deriving DecidableEq

def Frame.sort : Frame → FrameSort
  | .document _ => .document
  | .sequence _ => .sequence
  | .statement _ => .statement
  | .block _ => .block
  | .rule _ => .rule

/-- Whether a frame waits for a child of some sort. -/
def Frame.Awaits : Frame → FrameSort → Prop
  | .document f, .sequence => ∃ g context, f.phase = .body g context
  | .sequence _, .statement => True
  | .statement f, .rule => f.phase = .body
  | .statement f, .block => f.phase = .tail
  | .block f, .sequence => f.phase = .body
  | .rule f, .rule | .rule f, .block => f.entered = true
  | _, _ => False

theorem Frame.awaits_rule (f : RuleFrame) (sort : FrameSort) :
    (Frame.rule f).Awaits sort ↔ (sort = .rule ∨ sort = .block) ∧ f.entered = true := by
  cases sort <;> simp [Awaits]

theorem Frame.Awaits.document_body {f : DocumentFrame} {sort : FrameSort}
    (h : (Frame.document f).Awaits sort) : ∃ g context, f.phase = .body g context := by
  cases sort with
  | sequence => exact h
  | _ => exact h.elim

theorem Frame.Awaits.statement_phase {f : StatementFrame} {sort : FrameSort}
    (h : (Frame.statement f).Awaits sort) : f.phase = .body ∨ f.phase = .tail := by
  cases sort with
  | rule => exact .inl h
  | block => exact .inr h
  | _ => exact h.elim

/-- The frames of a stack, each on top of one that waits for it. -/
def Shaped : List Activation → Prop
  | [] => True
  | [a] => a.frame.sort = .document
  | a :: b :: below => b.frame.Awaits a.frame.sort ∧ Shaped (b :: below)

def Move.Continues (sort : FrameSort) : Move → Prop
  | .again f | .needInput f | .needResource f => f.sort = sort
  | .call f child => f.sort = sort ∧ f.Awaits child.sort
  | .leave _ => True

theorem Shaped.below {a : Activation} {below : List Activation} (h : Shaped (a :: below)) :
    Shaped below := by
  cases below with
  | nil => trivial
  | cons b below => exact h.2

theorem Shaped.replace {a b : Activation} {below : List Activation} (h : Shaped (a :: below))
    (hs : b.frame.sort = a.frame.sort) : Shaped (b :: below) := by
  cases below with
  | nil => exact hs.trans h
  | cons c below => exact ⟨hs ▸ h.1, h.2⟩

theorem Shaped.deliver {result : CallResult} {stack : List Activation} (h : Shaped stack) :
    Shaped (Interpreter.deliver result stack) := by
  cases stack with
  | nil => trivial
  | cons a below => exact h.replace rfl

theorem Shaped.stackAfter {a : Activation} {below : List Activation} {move : Move}
    (h : Shaped (a :: below)) (hm : move.Continues a.frame.sort) :
    Shaped (Interpreter.stackAfter move below).2 := by
  cases move with
  | again f => exact h.replace hm
  | needInput f => exact h.replace hm
  | needResource f => exact h.replace hm
  | call f child => exact ⟨hm.2, h.replace hm.1⟩
  | leave result => exact h.below.deliver

theorem Shaped.below_eq_nil {a : Activation} {below : List Activation} (h : Shaped (a :: below))
    (hs : a.frame.sort = .document) : below = [] := by
  cases below with
  | nil => rfl
  | cons b below =>
    have hb := h.1
    rw [hs] at hb
    cases hf : b.frame <;> rw [hf] at hb <;> cases hb

theorem Voted.shaped {ws : Workspace} {p : Phrase} {below below' : List Activation} {a : Activation}
    (h : Voted ws p below below') (hs : Shaped (a :: below)) : Shaped (a :: below') := by
  induction h generalizing a with
  | here f result below resume hv =>
    have ha := (Frame.awaits_rule f _).1 hs.1
    exact ⟨(Frame.awaits_rule _ _).2 ha, hs.2.replace rfl⟩
  | there f result hv h ih => exact ⟨hs.1, ih hs.2⟩

variable {below : List Activation} {ws : Workspace} {input : Cell Phrase} {turn : Turn}
  {result : CallResult}

theorem Frame.sort_ofRule {g : Grammar} {id : RuleId} {f : Frame} (h : Frame.ofRule g id = .ok f) :
    f.sort = .rule ∨ f.sort = .block := by
  unfold Frame.ofRule at h
  cases hr : g.rule id with
  | error m => rw [hr] at h; cases h
  | ok rule =>
    simp only [hr, bind, Except.bind] at h
    cases hb : rule.body with
    | actions entry => simp only [hb] at h; cases h; exact .inl rfl
    | block context => simp only [hb] at h; cases h; exact .inr rfl

theorem DocumentFrame.Turns.continues {f : DocumentFrame} (h : f.Turns below ws input turn) :
    turn.move.Continues .document := by
  cases h with
  | load input g hp hg => exact ⟨rfl, _, _, rfl⟩
  | stray p g context hp hk => exact ⟨rfl, _, _, hp⟩
  | close p g context hp hk => trivial
  | _ => rfl

theorem SequenceFrame.Turns.continues {f : SequenceFrame} (h : f.Turns below ws input turn) :
    turn.move.Continues .sequence := by
  cases h with
  | statement p hk => exact ⟨rfl, trivial⟩
  | close p hk => trivial
  | _ => rfl

theorem StatementFrame.Turns.continues {f : StatementFrame}
    (h : f.Turns below ws result input turn) : turn.move.Continues .statement := by
  cases h with
  | enter p ws₁ ws₂ entry hp hk hs hm he => exact ⟨rfl, rfl⟩
  | block p hp hk => exact ⟨rfl, hp⟩
  | giveUp p ws₁ hp hk hm => trivial
  | finish p role hp hk hr => trivial
  | breakOff p hp hk => trivial
  | _ => rfl

theorem BlockFrame.Turns.continues {f : BlockFrame} (h : f.Turns below ws input turn) :
    turn.move.Continues .block := by
  cases h with
  | enter p hp hk => exact ⟨rfl, rfl⟩
  | refuse p hp hk => trivial
  | close p hp hk => trivial
  | breakOff p hp hk => trivial
  | _ => rfl

theorem RuleFrame.Acts.continues {f : RuleFrame} {a : Action}
    (h : f.Acts below ws result a input turn) (he : f.entered = true) :
    turn.move.Continues .rule := by
  cases h with
  | call input rule success failure child hr hc =>
    refine ⟨rfl, ?_⟩
    rcases Frame.sort_ofRule hc with hs | hs <;> rw [hs] <;> exact he
  | done input success ws₁ hl => trivial
  | _ => rfl

theorem RuleFrame.grammar_entering (f : RuleFrame) (ws : Workspace) :
    (f.entering ws).1.grammar = f.grammar := by
  unfold entering
  split <;> rfl

theorem RuleFrame.entered_entering (f : RuleFrame) (ws : Workspace) :
    (f.entering ws).1.entered = true := by
  unfold entering
  split
  · next he => exact he
  · rfl

theorem Frame.Turns.continues {frame : Frame} (h : Frame.Turns below ws result frame input turn) :
    turn.move.Continues frame.sort := by
  cases h with
  | document f h => exact h.continues
  | sequence f h => exact h.continues
  | statement f h => exact h.continues
  | block f h => exact h.continues
  | rule f a ha h => exact h.continues (f.entered_entering ws)

/-- A step leaves the frames below alone, but for a vote. -/
theorem Frame.Turns.below_eq {frame : Frame} (h : Frame.Turns below ws result frame input turn) :
    turn.below = below ∨ ∃ ws p, Voted ws p below turn.below := by
  cases h with
  | document f h => cases h <;> exact .inl rfl
  | sequence f h => cases h <;> exact .inl rfl
  | statement f h => cases h <;> exact .inl rfl
  | block f h => cases h <;> exact .inl rfl
  | rule f a ha h =>
    cases h with
    | recover p normal recovery below' hf hr hv => exact .inr ⟨_, p, (enclosingVote_voted hv).2⟩
    | _ => exact .inl rfl

theorem Frame.Turns.shaped_below {frame : Frame} (h : Frame.Turns below ws result frame input turn)
    (hs : Shaped (⟨frame, result⟩ :: below)) : Shaped (⟨frame, result⟩ :: turn.below) := by
  rcases h.below_eq with hb | ⟨ws, p, hv⟩
  · rwa [hb]
  · exact hv.shaped hs

theorem Frame.Turns.shaped {frame : Frame} (h : Frame.Turns below ws result frame input turn)
    (hs : Shaped (⟨frame, result⟩ :: below)) :
    Shaped (Interpreter.stackAfter turn.move turn.below).2 :=
  (h.shaped_below hs).stackAfter h.continues

end TermStream
