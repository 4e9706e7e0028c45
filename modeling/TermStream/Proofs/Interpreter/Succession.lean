import Mathlib.Data.List.Chain
import TermStream.Proofs.Interpreter.OwnKeywords

namespace TermStream

/-- The frame but for its vote, which is made by a rule above it. -/
def Activation.unvoted (a : Activation) : Activation :=
  match a.frame with
  | .rule f => { a with frame := .rule { f with activeChoice := none } }
  | _ => a

def unvoted (stack : List Activation) : List Activation := stack.map Activation.unvoted

variable {below below' inner above : List Activation} {ws : Workspace} {input : Cell Phrase}
  {turn : Turn} {result : CallResult}

theorem Voted.unvoted_eq {p : Phrase} (h : Voted ws p below below') :
    unvoted below' = unvoted below := by
  induction h with
  | here f result below resume hv => rfl
  | there f result hv h ih => exact congrArg (_ :: ·) ih

/-- A stack that is another one but for votes has the same frames in the same places. -/
theorem exists_of_unvoted_eq {stack : List Activation}
    (h : unvoted stack = unvoted (above ++ inner)) :
    ∃ above' inner', stack = above' ++ inner' ∧ unvoted above' = unvoted above ∧
      unvoted inner' = unvoted inner := by
  rw [unvoted, unvoted, List.map_append] at h
  exact List.map_eq_append_iff.1 h

theorem exists_rule_of_unvoted_eq {stack : List Activation} {f : RuleFrame}
    (h : unvoted stack = unvoted (⟨.rule f, result⟩ :: below)) :
    ∃ f' below', stack = ⟨.rule f', result⟩ :: below' ∧
      { f' with activeChoice := none } = { f with activeChoice := none } ∧
      unvoted below' = unvoted below := by
  obtain ⟨⟨frame, result'⟩, below', rfl, ha, hb⟩ := List.map_eq_cons_iff.1 h
  cases frame with
  | rule f' =>
    obtain ⟨hf, rfl⟩ := Activation.mk.inj ha
    exact ⟨f', below', rfl, Frame.rule.inj hf, hb⟩
  | _ => cases ha

theorem Frame.Turns.unvoted_below {frame : Frame}
    (h : Frame.Turns below ws result frame input turn) : unvoted turn.below = unvoted below := by
  rcases h.below_eq with hb | ⟨ws', p, hv⟩
  · rw [hb]
  · exact hv.unvoted_eq

theorem Frame.Turns.below_of_leave {frame : Frame} {r : CallResult}
    (h : Frame.Turns below ws result frame input turn) (hm : turn.move = .leave r) :
    turn.below = below := by
  cases h with
  | document f h => cases h <;> rfl
  | sequence f h => cases h <;> rfl
  | statement f h => cases h <;> rfl
  | block f h => cases h <;> rfl
  | rule f a ha h =>
    cases h with
    | recover p normal recovery below' hf hr hv => cases hm
    | _ => rfl

/-- A frame is left, or it is replaced by frames that have not been told anything. -/
theorem Move.stackAfter_cases (move : Move) (below : List Activation) :
    (∃ r, move = .leave r ∧
        (Interpreter.stackAfter move below).2 = Interpreter.deliver r below) ∨
      ∃ a top, (∀ b ∈ a :: top, b.result = .none) ∧
        (Interpreter.stackAfter move below).2 = a :: top ++ below := by
  cases move with
  | leave r => exact .inl ⟨r, rfl, rfl⟩
  | call f child => exact .inr ⟨⟨child, .none⟩, [⟨f, .none⟩], by simp, rfl⟩
  | again f => exact .inr ⟨⟨f, .none⟩, [], by simp, rfl⟩
  | needInput f => exact .inr ⟨⟨f, .none⟩, [], by simp, rfl⟩
  | needResource f => exact .inr ⟨⟨f, .none⟩, [], by simp, rfl⟩

namespace Interpreter

/-- What may come next in a session. -/
inductive Follows (t u : Interpreter) : Prop where
  | still (h : u.stack = t.stack)
  | start (h : t.stack = []) (hu : u.stack = [⟨.document .new, .none⟩])
  | step (a : Activation) (below : List Activation) (input : Cell Phrase) (turn : Turn)
      (ho : t.workspace.queue.hasOutput = false) (hs : t.stack = a :: below)
      (ht : stepFrame a below t.workspace input = .ok turn)
      (hu : u.stack = (stackAfter turn.move turn.below).2)

variable {t : Interpreter}

theorem Sound.follows (h : t.Sound) (input : Cell Phrase) : t.Follows (t.step input).2.1 := by
  have hs := step_steps t input
  generalize t.step input = r at hs ⊢
  obtain ⟨outcome, t', input'⟩ := r
  cases hs with
  | output ho => exact .still rfl
  | finish ho hstack => exact .still rfl
  | lose a below e ho hstack he =>
    obtain ⟨turn, ht⟩ := h.exists_turn hstack input'
    rw [he] at ht
    cases ht
  | move a below turn ho hstack ht =>
    exact .step a below input turn ho hstack ht rfl

theorem Sound.chain_visited (h : t.Sound) (fuel : Nat) (input : Cell Phrase) :
    (t :: t.visited fuel input).IsChain Follows ∧
      (t.visited fuel input).getLast? = some (t.run fuel input).2.1 := by
  have hhead : ∀ (fuel : Nat) (t : Interpreter) (input : Cell Phrase),
      (t.visited fuel input).head? = some t := by
    intro fuel t input
    cases fuel <;> rfl
  suffices hchain : (t.visited fuel input).IsChain Follows ∧
      (t.visited fuel input).getLast? = some (t.run fuel input).2.1 by
    refine ⟨List.isChain_cons.2 ⟨?_, hchain.1⟩, hchain.2⟩
    intro u hu
    rw [hhead] at hu
    cases hu
    exact .still rfl
  induction fuel using Nat.strongRecOn generalizing t input with
  | ind fuel ih =>
    cases fuel with
    | zero => exact ⟨.singleton t, rfl⟩
    | succ fuel =>
      obtain ⟨n, hn, hv, hr⟩ := visited_succ fuel t input
      have hsound := (h.steps (step_steps t input)).2
      obtain ⟨hchain, hlast⟩ := ih n (Nat.lt_succ_of_le hn) hsound (t.step input).2.2
      rw [hv, hr]
      refine ⟨List.isChain_cons.2 ⟨?_, hchain⟩, ?_⟩
      · intro u hu
        rw [hhead] at hu
        cases hu
        exact h.follows input
      · rw [List.getLast?_cons, hlast]
        rfl

namespace Session

variable {s : Session}

theorem Sound.follows_perform {call : Call} (h : s.Sound) (hb : call.Builds)
    (hc : ∀ fuel, call ≠ .parse fuel) :
    s.interpreter.Follows (s.perform call).interpreter := by
  rcases stack_perform h hc with hstack | hstack
  · exact .still hstack
  · have hshaped := (h.perform hb).interpreter.shaped
    rw [hstack] at hshaped
    have hnil := hshaped.below_eq_nil rfl
    exact .start hnil (hnil ▸ hstack)

theorem Sound.chain_visitedBy {call : Call} (h : s.Sound) (hb : call.Builds) :
    (s.interpreter :: s.visitedBy call).IsChain Follows ∧
      (s.visitedBy call).getLast? = some (s.perform call).interpreter := by
  by_cases hc : ∀ fuel, call ≠ .parse fuel
  · rw [visitedBy_eq s hc]
    exact ⟨.cons_cons (h.follows_perform hb hc) (.singleton _), rfl⟩
  · obtain ⟨fuel, rfl⟩ : ∃ fuel, call = .parse fuel := by simpa using hc
    rcases visitedBy_parse s fuel with ⟨hv, hp⟩ | ⟨hv, hp⟩
    · rw [hv, hp]
      exact ⟨.cons_cons (.still rfl) (.singleton _), rfl⟩
    · rw [hv, hp]
      exact h.interpreter.chain_visited fuel s.cell

/-- The states that a session visits follow one another. -/
theorem Sound.chain_visited {calls : List Call} (h : s.Sound) (hb : ∀ call ∈ calls, call.Builds) :
    (s.interpreter :: s.visited calls).IsChain Follows := by
  induction calls generalizing s with
  | nil => exact .cons_cons (.still rfl) (.singleton _)
  | cons call calls ih =>
    have hcall := hb call List.mem_cons_self
    obtain ⟨hchain, hlast⟩ := h.chain_visitedBy hcall
    have hnext := ih (h.perform hcall) fun c hc => hb c (List.mem_cons_of_mem _ hc)
    obtain ⟨hhead, hrest⟩ := List.isChain_cons.1 hnext
    rw [visited, ← List.cons_append]
    refine List.isChain_append.2 ⟨hchain, hrest, ?_⟩
    intro t ht u hu
    rw [List.getLast?_cons, hlast] at ht
    cases ht
    exact hhead u hu

end Session

end Interpreter

end TermStream
