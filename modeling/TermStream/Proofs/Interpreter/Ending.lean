import TermStream.Proofs.Interpreter.Waiting
import TermStream.Proofs.Phrase.Tiling

namespace TermStream

variable {below : List Activation} {ws : Workspace} {input : Cell Phrase} {turn : Turn}
  {result : CallResult}

def Turn.TakesEof (turn : Turn) (input : Cell Phrase) : Prop :=
  turn.input = none ∧ ∃ p, input = some p ∧ p.kind = .eof

theorem Turn.not_takesEof_kept {move : Move} :
    ¬ Turn.TakesEof ⟨move, below, ws, input⟩ input := by
  rintro ⟨hn, p, hp, -⟩
  exact absurd (hn.symm.trans hp) nofun

theorem Turn.not_takesEof_of_ne {move : Move} {cell : Cell Phrase} {p : Phrase}
    (hk : p.kind ≠ .eof) : ¬ Turn.TakesEof ⟨move, below, ws, cell⟩ (some p) := by
  rintro ⟨-, q, hq, he⟩
  exact hk (Option.some.inj hq ▸ he)

open Turn

theorem DocumentFrame.Turns.takesEof_iff {f : DocumentFrame} (h : f.Turns below ws input turn) :
    turn.TakesEof input ↔ ∃ r, turn.move = .leave r := by
  cases h with
  | close p g context hp hk => exact iff_of_true ⟨rfl, p, rfl, hk⟩ ⟨_, rfl⟩
  | passLeading p hp hk =>
    exact iff_of_false (not_takesEof_of_ne (by rcases hk with hk | hk <;> simp [hk])) nofun
  | declare p ws₁ ws₂ hp hk hw hs hm =>
    exact iff_of_false (not_takesEof_of_ne (by simp [hk])) nofun
  | passProperties p hp hk => exact iff_of_false (not_takesEof_of_ne (by simp [hk])) nofun
  | word p property hp hk hw hs => exact iff_of_false (not_takesEof_of_ne (by simp [hk])) nofun
  | systemId p hp hk hs => exact iff_of_false (not_takesEof_of_ne (by simp [hk])) nofun
  | leftover p hp hk hs => exact iff_of_false (not_takesEof_of_ne (by simp [hk])) nofun
  | finish p hp hk =>
    exact iff_of_false (not_takesEof_of_ne (by rcases hk with hk | hk <;> simp [hk])) nofun
  | passExpect p property hp hk => exact iff_of_false (not_takesEof_of_ne (by simp [hk])) nofun
  | string p property hp hk hs => exact iff_of_false (not_takesEof_of_ne (by simp [hk])) nofun
  | stray p g context hp hk => exact iff_of_false (not_takesEof_of_ne hk) nofun
  | _ => exact iff_of_false not_takesEof_kept nofun

theorem SequenceFrame.Turns.not_takesEof {f : SequenceFrame} (h : f.Turns below ws input turn) :
    ¬ turn.TakesEof input := by
  cases h with
  | control p hk => exact not_takesEof_of_ne (by rcases hk with hk | ⟨hk, -⟩ <;> simp [hk])
  | drop p hk ht => exact not_takesEof_of_ne (by simp [hk])
  | _ => exact not_takesEof_kept

theorem StatementFrame.Turns.not_takesEof {f : StatementFrame}
    (h : f.Turns below ws result input turn) : ¬ turn.TakesEof input := by
  cases h with
  | passLeading p hp hk => exact not_takesEof_of_ne (by rcases hk with hk | hk <;> simp [hk])
  | passTail p hp hk => exact not_takesEof_of_ne (by rcases hk with hk | ⟨hk, -⟩ <;> simp [hk])
  | finish p role hp hk hr =>
    exact not_takesEof_of_ne (by rcases hk with hk | ⟨hk, -⟩ <;> simp [hk])
  | leftover p first hp hk hf => exact not_takesEof_of_ne (by simp [hk])
  | _ => exact not_takesEof_kept

theorem BlockFrame.Turns.not_takesEof {f : BlockFrame} (h : f.Turns below ws input turn) :
    ¬ turn.TakesEof input := by
  cases h with
  | enter p hp hk => exact not_takesEof_of_ne (by simp [hk])
  | close p hp hk => exact not_takesEof_of_ne (by simp [hk])
  | _ => exact not_takesEof_kept

theorem RuleFrame.Acts.not_takesEof {f : RuleFrame} {a : Action}
    (h : f.Acts below ws result a input turn) : ¬ turn.TakesEof input := by
  cases h with
  | pass p skipDocComments next hs =>
    apply not_takesEof_of_ne
    intro he
    simp [Workspace.isSkippable, he] at hs
  | take p kind role name next ho =>
    apply not_takesEof_of_ne
    intro he
    simp [PhraseKind.isOuter, PhraseKind.closesStatement, he] at ho
  | _ => exact not_takesEof_kept

/-- Only the document takes the end of the input, and it ends with it. -/
theorem Frame.Turns.takesEof_iff {frame : Frame}
    (h : Frame.Turns below ws result frame input turn) :
    turn.TakesEof input ↔ frame.sort = .document ∧ ∃ r, turn.move = .leave r := by
  cases h with
  | document f h => simpa [Frame.sort] using h.takesEof_iff
  | sequence f h => exact iff_of_false h.not_takesEof nofun
  | statement f h => exact iff_of_false h.not_takesEof nofun
  | block f h => exact iff_of_false h.not_takesEof nofun
  | rule f a ha h => exact iff_of_false h.not_takesEof nofun

theorem Frame.Turns.stack_eq_nil_iff {frame : Frame}
    (h : Frame.Turns below ws result frame input turn) (hs : Shaped (⟨frame, result⟩ :: below)) :
    (Interpreter.stackAfter turn.move turn.below).2 = [] ↔ turn.TakesEof input := by
  have hs' := h.shaped_below hs
  rw [h.takesEof_iff]
  cases hm : turn.move with
  | leave r =>
    refine ⟨fun he => ⟨?_, r, rfl⟩, fun ⟨hd, _⟩ => ?_⟩
    · have hb : turn.below = [] := by
        cases hb : turn.below with
        | nil => rfl
        | cons a below =>
          rw [hb] at he
          cases he
      rwa [hb] at hs'
    · rw [hs'.below_eq_nil hd]
      rfl
  | again f => exact iff_of_false nofun fun ⟨_, r, hr⟩ => nomatch hr
  | needInput f => exact iff_of_false nofun fun ⟨_, r, hr⟩ => nomatch hr
  | needResource f => exact iff_of_false nofun fun ⟨_, r, hr⟩ => nomatch hr
  | call f child => exact iff_of_false nofun fun ⟨_, r, hr⟩ => nomatch hr

/-- A frame asks for a phrase only when the cell is empty. -/
theorem Frame.Turns.input_eq_none {frame f : Frame}
    (h : Frame.Turns below ws result frame input turn) (hm : turn.move = .needInput f) :
    turn.input = none := by
  cases h with
  | document f h => cases h <;> first | rfl | exact absurd hm nofun
  | sequence f h => cases h <;> first | rfl | exact absurd hm nofun
  | statement f h => cases h <;> first | rfl | exact absurd hm nofun
  | block f h => cases h <;> first | rfl | exact absurd hm nofun
  | rule f a ha h => cases h <;> first | rfl | exact absurd hm nofun

namespace Interpreter

theorem step_inputNeeded {t t' : Interpreter} {input input' : Cell Phrase}
    (h : t.step input = (.ok (some .inputNeeded), t', input')) : input' = none ∧ t.stack ≠ [] := by
  cases step_ends h with
  | needInput a below turn f ho hs ht hm =>
    exact ⟨(stepFrame_turns ht).input_eq_none hm, by rw [hs]; exact List.cons_ne_nil _ _⟩

theorem step_eof {t t' : Interpreter} {input input' : Cell Phrase}
    (h : t.step input = (.ok (some .eof), t', input')) :
    t.stack = [] ∧ t.workspace.queue.hasOutput = false := by
  cases step_ends h with
  | finish ho hs => exact ⟨hs, ho⟩

/-- The phrases that are left end with the end of the input. When it has been taken, there are none
left, and nothing is on the stack. -/
structure Ending (t : Interpreter) (ps : List Phrase) : Prop where
  endsOnce : t.stack ≠ [] → EndsOnce Phrase.isEof ps
  eq_nil : t.stack = [] → ps = []

theorem Ending.step {t : Interpreter} {input : Cell Phrase} {ps : List Phrase}
    (h : t.Ending (input.toList ++ ps)) (hsound : t.Sound) :
    (t.step input).2.1.Ending ((t.step input).2.2.toList ++ ps) := by
  have hs := step_steps t input
  generalize t.step input = r at hs ⊢
  obtain ⟨outcome, t', input'⟩ := r
  cases hs with
  | output ho => exact h
  | finish ho hs => exact ⟨h.endsOnce, h.eq_nil⟩
  | lose a below e ho hs he =>
    obtain ⟨turn, ht⟩ := hsound.exists_turn hs input'
    rw [he] at ht
    cases ht
  | move a below turn ho hs ht =>
    have hturn := stepFrame_turns ht
    have hshaped := hsound.shaped
    rw [hs] at hshaped
    have hiff := hturn.stack_eq_nil_iff hshaped
    have hends := h.endsOnce (by rw [hs]; exact List.cons_ne_nil _ _)
    refine ⟨fun hne => ?_, fun hnil => ?_⟩
    · have hnot : ¬ turn.TakesEof input := fun htakes => hne (hiff.2 htakes)
      change EndsOnce Phrase.isEof (turn.input.toList ++ ps)
      rcases hturn.input_eq with hin | hin
      · rwa [hin]
      · rw [hin]
        cases input with
        | none => exact hends
        | some p =>
          have hp : ¬ p.isEof = true := fun he => hnot ⟨hin, p, rfl, beq_iff_eq.1 he⟩
          exact (if_neg hp).mp hends
    · obtain ⟨hin, p, rfl, hk⟩ := hiff.1 hnil
      change turn.input.toList ++ ps = []
      rw [hin]
      exact (if_pos (beq_iff_eq.2 hk : p.isEof = true)).mp hends

end Interpreter

end TermStream
