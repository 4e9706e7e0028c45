import TermStream.Interpreter
import TermStream.Proofs.Interpreter.DocumentTurns
import TermStream.Proofs.Interpreter.StatementTurns
import TermStream.Proofs.Interpreter.RuleTurns

namespace TermStream

/-- The outcomes of a step of a frame that is on top of the frames `below`. -/
inductive Frame.Turns (below : List Activation) (ws : Workspace) (result : CallResult) :
    Frame → Cell Phrase → Turn → Prop where
  | document (f : DocumentFrame) {input : Cell Phrase} {turn : Turn}
      (h : f.Turns below ws input turn) : Turns below ws result (.document f) input turn
  | sequence (f : SequenceFrame) {input : Cell Phrase} {turn : Turn}
      (h : f.Turns below ws input turn) : Turns below ws result (.sequence f) input turn
  | statement (f : StatementFrame) {input : Cell Phrase} {turn : Turn}
      (h : f.Turns below ws result input turn) : Turns below ws result (.statement f) input turn
  | block (f : BlockFrame) {input : Cell Phrase} {turn : Turn}
      (h : f.Turns below ws input turn) : Turns below ws result (.block f) input turn
  | rule (f : RuleFrame) (a : Action) {input : Cell Phrase} {turn : Turn}
      (ha : (f.entering ws).1.grammar.action (f.entering ws).1.current = .ok a)
      (h : (f.entering ws).1.Acts below (f.entering ws).2 result a input turn) :
      Turns below ws result (.rule f) input turn

namespace Interpreter

theorem stepFrame_turns {a : Activation} {below : List Activation} {ws : Workspace}
    {input : Cell Phrase} {turn : Turn} (h : stepFrame a below ws input = .ok turn) :
    Frame.Turns below ws a.result a.frame input turn := by
  obtain ⟨frame, result⟩ := a
  cases frame with
  | document f => exact .document f (DocumentFrame.step_turns h)
  | sequence f =>
    cases h
    exact .sequence f (f.step_turns below ws input)
  | statement f => exact .statement f (StatementFrame.step_turns h)
  | block f =>
    cases h
    exact .block f (f.step_turns below ws input)
  | rule f =>
    obtain ⟨a, ha, hacts⟩ := RuleFrame.step_acts h
    exact .rule f a ha hacts

inductive Steps (t : Interpreter) (input : Cell Phrase) :
    Except Halt (Option Progress) → Interpreter → Cell Phrase → Prop where
  | output (ho : t.workspace.queue.hasOutput = true) :
      Steps t input (.ok (some .outputAvailable)) t input
  | finish (ho : t.workspace.queue.hasOutput = false) (hs : t.stack = []) :
      Steps t input (.ok (some .eof)) { t with finished := true } input
  | lose (a : Activation) (below : List Activation) (h : Halt)
      (ho : t.workspace.queue.hasOutput = false) (hs : t.stack = a :: below)
      (he : stepFrame a below t.workspace input = .error h) :
      Steps t input (.error h) { t with stack := below } input
  | move (a : Activation) (below : List Activation) (turn : Turn)
      (ho : t.workspace.queue.hasOutput = false) (hs : t.stack = a :: below)
      (ht : stepFrame a below t.workspace input = .ok turn) :
      Steps t input (.ok (stackAfter turn.move turn.below).1)
        { t with workspace := turn.workspace, stack := (stackAfter turn.move turn.below).2 }
        turn.input

theorem step_steps (t : Interpreter) (input : Cell Phrase) :
    Steps t input (t.step input).1 (t.step input).2.1 (t.step input).2.2 := by
  unfold step
  split
  · next ho => exact .output ho
  · next ho =>
    have ho : t.workspace.queue.hasOutput = false := by simpa using ho
    split
    · next hs => exact .finish ho hs
    · next a below hs =>
      split
      · next h he => exact .lose a below h ho hs he
      · next turn ht => exact .move a below turn ho hs ht

inductive Ends (t : Interpreter) (input : Cell Phrase) :
    Progress → Interpreter → Cell Phrase → Prop where
  | output (ho : t.workspace.queue.hasOutput = true) : Ends t input .outputAvailable t input
  | finish (ho : t.workspace.queue.hasOutput = false) (hs : t.stack = []) :
      Ends t input .eof { t with finished := true } input
  | needInput (a : Activation) (below : List Activation) (turn : Turn) (f : Frame)
      (ho : t.workspace.queue.hasOutput = false) (hs : t.stack = a :: below)
      (ht : stepFrame a below t.workspace input = .ok turn) (hm : turn.move = .needInput f) :
      Ends t input .inputNeeded
        { t with workspace := turn.workspace, stack := ⟨f, .none⟩ :: turn.below } turn.input
  | needResource (a : Activation) (below : List Activation) (turn : Turn) (f : Frame)
      (ho : t.workspace.queue.hasOutput = false) (hs : t.stack = a :: below)
      (ht : stepFrame a below t.workspace input = .ok turn) (hm : turn.move = .needResource f) :
      Ends t input .resourceNeeded
        { t with workspace := turn.workspace, stack := ⟨f, .none⟩ :: turn.below } turn.input

theorem step_ends {t t' : Interpreter} {input input' : Cell Phrase} {progress : Progress}
    (h : t.step input = (.ok (some progress), t', input')) : Ends t input progress t' input' := by
  have hs := step_steps t input
  rw [h] at hs
  generalize hout : (Except.ok (some progress) : Except Halt (Option Progress)) = outcome at hs
  cases hs with
  | output ho => cases hout; exact .output ho
  | finish ho hs => cases hout; exact .finish ho hs
  | lose a below e ho hs he => cases hout
  | move a below turn ho hs ht =>
    have hp := Except.ok.inj hout
    cases hm : turn.move with
    | needInput f =>
      rw [hm] at hp
      cases hp
      exact .needInput a below turn f ho hs ht hm
    | needResource f =>
      rw [hm] at hp
      cases hp
      exact .needResource a below turn f ho hs ht hm
    | again f => rw [hm] at hp; cases hp
    | call f child => rw [hm] at hp; cases hp
    | leave r => rw [hm] at hp; cases hp

theorem run_succ (fuel : Nat) (t : Interpreter) (input : Cell Phrase) :
    t.run (fuel + 1) input =
      match (t.step input).1 with
      | .error h => (.error h, (t.step input).2)
      | .ok (some progress) => (.ok progress, (t.step input).2)
      | .ok none => (t.step input).2.1.run fuel (t.step input).2.2 := by
  rw [run]
  rcases t.step input with ⟨_ | _ | progress, t', input'⟩ <;> rfl

/-- Whatever every step preserves is preserved by a call, however many steps it takes. -/
theorem run_preserves {P : Interpreter → Cell Phrase → Prop}
    (hstep : ∀ t input, P t input → P (t.step input).2.1 (t.step input).2.2) {fuel : Nat}
    {t : Interpreter} {input : Cell Phrase} (h : P t input) :
    P (t.run fuel input).2.1 (t.run fuel input).2.2 := by
  induction fuel generalizing t input with
  | zero => exact h
  | succ fuel ih =>
    have hs := hstep t input h
    rw [run_succ]
    split
    · exact hs
    · exact hs
    · exact ih hs

theorem parse_finished {t : Interpreter} (hs : t.started = true) (hf : t.finished = true)
    (fuel : Nat) (input : Cell Phrase) : t.parse fuel input = (.ok .eof, t, input) := by
  rw [parse, hs, hf]
  rfl

theorem parse_eq_run {t : Interpreter} (hs : t.started = true) (hf : t.finished = false)
    (fuel : Nat) (input : Cell Phrase) : t.parse fuel input = t.run fuel input := by
  rw [parse, hs, hf]
  rfl

theorem exists_step_of_run {fuel : Nat} {t : Interpreter} {input : Cell Phrase}
    {progress : Progress} (h : (t.run fuel input).1 = .ok progress) :
    ∃ (t₀ : Interpreter) (input₀ : Cell Phrase),
      t₀.step input₀ = (.ok (some progress), (t.run fuel input).2) := by
  induction fuel generalizing t input with
  | zero => cases h
  | succ fuel ih =>
    rw [run_succ] at h ⊢
    rcases hs : (t.step input).1 with e | _ | found
    · rw [hs] at h
      cases h
    · rw [hs] at h
      exact ih h
    · rw [hs] at h
      cases h
      exact ⟨t, input, Prod.ext hs rfl⟩

end Interpreter

end TermStream
