import Mathlib.Data.List.Induction
import TermStream.Proofs.Interpreter.Succession

namespace TermStream

open Interpreter

variable {t u t₀ : Interpreter} {below stack above : List Activation} {ws : Workspace}
  {input : Cell Phrase} {turn : Turn} {result r : CallResult} {f : RuleFrame}

/-- A call of a rule: the frame that makes it, with the frames below that, and the child. -/
structure RuleCall where
  caller : RuleFrame
  below : List Activation
  rule : RuleId
  success : ActionId
  failure : ActionId
  child : Frame
  entered : caller.entered = true
  action_eq : caller.grammar.action caller.current = .ok (.call rule success failure)
  child_eq : Frame.ofRule caller.grammar rule = .ok child

namespace RuleCall

variable {c : RuleCall}

def branch (c : RuleCall) : CallResult → ActionId
  | .success => c.success
  | _ => c.failure

/-- The caller is at its call and has not been told anything. It may have voted, and so may the
rules below it. -/
def Waits (c : RuleCall) (stack : List Activation) : Prop :=
  unvoted stack = unvoted (⟨.rule c.caller, .none⟩ :: c.below)

structure Made (c : RuleCall) (t u : Interpreter) : Prop where
  before : ∃ f, t.stack = ⟨.rule f, .none⟩ :: c.below ∧ c.caller = (f.entering t.workspace).1
  after : u.stack = ⟨c.child, .none⟩ :: ⟨.rule c.caller, .none⟩ :: c.below

/-- The child is on top of the caller. On top of the child there may be other frames. -/
def Runs (c : RuleCall) (t : Interpreter) : Prop :=
  ∃ a top stack, t.stack = a :: top ++ stack ∧ c.Waits stack

/-- The step from `t` to `u` leaves the child, and the caller is told how. -/
def Returns (c : RuleCall) (r : CallResult) (t u : Interpreter) : Prop :=
  r ≠ .none ∧ ∃ a stack input turn, t.stack = a :: stack ∧ c.Waits stack ∧
    stepFrame a stack t.workspace input = .ok turn ∧ turn.move = .leave r ∧
    u.stack = deliver r stack

/-- The caller is on top and has been told how the child has ended. -/
def Told (c : RuleCall) (r : CallResult) (t : Interpreter) : Prop :=
  ∃ f below, t.stack = ⟨.rule f, r⟩ :: below ∧ c.Waits (⟨.rule f, .none⟩ :: below)

def Resumes (c : RuleCall) (r : CallResult) (t : Interpreter) : Prop :=
  ∃ f below, t.stack = ⟨.rule (f.goto (c.branch r)), .none⟩ :: below ∧
    c.Waits (⟨.rule f, .none⟩ :: below)

/-- The course of the call that is made in `t₀`: first the child runs, then the caller is told, and
in the rest it has gone on. -/
structure Course (c : RuleCall) (r : CallResult) (t₀ : Interpreter)
    (running told rest : List Interpreter) : Prop where
  made : ∃ u ∈ running.head?, c.Made t₀ u
  runs : ∀ t ∈ running, c.Runs t
  tells : ∀ t ∈ told, c.Told r t
  returns : ∀ t ∈ running.getLast?, ∀ u ∈ told.head?, c.Returns r t u
  resumes : ∀ u ∈ rest.head?, told ≠ [] ∧ c.Resumes r u

theorem Waits.exists_caller (h : c.Waits stack) :
    ∃ f below, stack = ⟨.rule f, .none⟩ :: below ∧ f.entered = true ∧
      f.grammar.action f.current = .ok (.call c.rule c.success c.failure) := by
  obtain ⟨f, below, rfl, hf, -⟩ := exists_rule_of_unvoted_eq h
  obtain ⟨hgrammar, hcurrent, hentered, -⟩ := RuleFrame.mk.inj hf
  refine ⟨f, below, rfl, hentered.trans c.entered, ?_⟩
  rw [hgrammar, hcurrent]
  exact c.action_eq

/-- The next step of a caller that has been told takes the branch for the result. -/
theorem Waits.stepFrame_eq (h : c.Waits (⟨.rule f, .none⟩ :: below)) (hr : r ≠ .none)
    (ws : Workspace) (input : Cell Phrase) :
    stepFrame ⟨.rule f, r⟩ below ws input =
      .ok ⟨.again (.rule (f.goto (c.branch r))), below, ws, input⟩ := by
  obtain ⟨f', below', heq, he, ha⟩ := h.exists_caller
  cases heq
  have hentering : f.entering ws = (f, ws) := if_pos he
  change f.step below ws input r = _
  rw [RuleFrame.step_eq, hentering]
  dsimp only
  rw [ha]
  cases r with
  | none => exact absurd rfl hr
  | success => rfl
  | failure => rfl

end RuleCall

theorem Frame.Turns.leave_ne_none {frame : Frame} (h : Frame.Turns below ws result frame input turn)
    (hs : frame.sort = .rule ∨ frame.sort = .block) (hm : turn.move = .leave r) : r ≠ .none := by
  cases h with
  | document f h => rcases hs with hs | hs <;> cases hs
  | sequence f h => rcases hs with hs | hs <;> cases hs
  | statement f h => rcases hs with hs | hs <;> cases hs
  | block f h => cases h <;> cases hm <;> exact nofun
  | rule f a ha h =>
    cases h with
    | done input success ws₁ hl =>
      cases hm
      cases success <;> exact nofun
    | _ => cases hm

namespace RuleCall

variable {c : RuleCall}

/-- While the child runs, the next state is one in which it runs, or the child is left. -/
theorem Runs.next (h : c.Runs t) (hs : t.Sound) (hf : t.Follows u) :
    c.Runs u ∨ ∃ r, c.Returns r t u ∧ c.Told r u := by
  obtain ⟨a, top, stack, hstack, hw⟩ := h
  cases hf with
  | still hu => exact .inl ⟨a, top, stack, hu.trans hstack, hw⟩
  | start hnil => cases hnil.symm.trans hstack
  | step a' below input turn ho hs' ht hu =>
    obtain ⟨rfl, rfl⟩ := List.cons.inj (hs'.symm.trans hstack)
    have hturn := stepFrame_turns ht
    rcases turn.move.stackAfter_cases turn.below with ⟨r, hm, hafter⟩ | ⟨b, above, -, hafter⟩
    · rw [hafter, hturn.below_of_leave hm] at hu
      cases top with
      | cons b top => exact .inl ⟨{ b with result := r }, top, stack, hu, hw⟩
      | nil =>
        obtain ⟨f, below, rfl, -⟩ := hw.exists_caller
        have hsort : a'.frame.sort = .rule ∨ a'.frame.sort = .block := by
          have hshaped := hs.shaped
          rw [hstack] at hshaped
          exact ((Frame.awaits_rule f _).1 hshaped.1).1
        exact .inr ⟨r, ⟨hturn.leave_ne_none hsort hm, a', _, input, turn, hstack, hw, ht, hm, hu⟩,
          f, below, hu, hw⟩
    · obtain ⟨top', stack', hb, -, hst⟩ := exists_of_unvoted_eq hturn.unvoted_below
      rw [hafter, hb] at hu
      refine .inl ⟨b, above ++ top', stack', ?_, hst.trans hw⟩
      rw [hu]
      simp

/-- A caller that has been told stays so until its next step, which goes on. -/
theorem Told.next (h : c.Told r t) (hr : r ≠ .none) (hf : t.Follows u) :
    c.Told r u ∨ c.Resumes r u := by
  obtain ⟨f, below, hstack, hw⟩ := h
  cases hf with
  | still hu => exact .inl ⟨f, below, hu.trans hstack, hw⟩
  | start hnil => cases hnil.symm.trans hstack
  | step a' below' input turn ho hs' ht hu =>
    obtain ⟨rfl, rfl⟩ := List.cons.inj (hs'.symm.trans hstack)
    rw [hw.stepFrame_eq hr] at ht
    cases ht
    exact .inr ⟨f, below', hu, hw⟩

namespace Course

variable {running told rest : List Interpreter}

theorem running_ne_nil (h : c.Course r t₀ running told rest) : running ≠ [] := by
  obtain ⟨u, hu, -⟩ := h.made
  rintro rfl
  cases hu

theorem start (h : c.Made t₀ u) (r : CallResult) : c.Course r t₀ [u] [] [] where
  made := ⟨u, rfl, h⟩
  runs := List.forall_mem_singleton.2 ⟨_, [], _, h.after, rfl⟩
  tells := List.forall_mem_nil _
  returns := fun _ _ _ hu => nomatch hu
  resumes := fun _ hu => nomatch hu

theorem run (h : c.Course r t₀ running [] []) (hu : c.Runs u) :
    c.Course r t₀ (running ++ [u]) [] [] where
  made := by
    rw [List.head?_append_of_ne_nil _ h.running_ne_nil]
    exact h.made
  runs := List.forall_mem_append.2 ⟨h.runs, List.forall_mem_singleton.2 hu⟩
  tells := List.forall_mem_nil _
  returns := fun _ _ _ hu => nomatch hu
  resumes := fun _ hu => nomatch hu

theorem tell {r' : CallResult} (h : c.Course r t₀ running [] []) (ht : t ∈ running.getLast?)
    (hr : c.Returns r' t u) (hu : c.Told r' u) : c.Course r' t₀ running [u] [] where
  made := h.made
  runs := h.runs
  tells := List.forall_mem_singleton.2 hu
  returns := by
    intro t' ht' u' hu'
    cases ht.symm.trans ht'
    cases hu'
    exact hr
  resumes := fun _ hu => nomatch hu

theorem wait (h : c.Course r t₀ running told []) (hn : told ≠ []) (hu : c.Told r u) :
    c.Course r t₀ running (told ++ [u]) [] where
  made := h.made
  runs := h.runs
  tells := List.forall_mem_append.2 ⟨h.tells, List.forall_mem_singleton.2 hu⟩
  returns := by
    rw [List.head?_append_of_ne_nil _ hn]
    exact h.returns
  resumes := fun _ hu => nomatch hu

theorem resume (h : c.Course r t₀ running told []) (hn : told ≠ []) (hu : c.Resumes r u) :
    c.Course r t₀ running told [u] where
  made := h.made
  runs := h.runs
  tells := h.tells
  returns := h.returns
  resumes := by
    rintro u' ⟨⟩
    exact ⟨hn, hu⟩

theorem later (h : c.Course r t₀ running told rest) (hn : rest ≠ []) (u : Interpreter) :
    c.Course r t₀ running told (rest ++ [u]) where
  made := h.made
  runs := h.runs
  tells := h.tells
  returns := h.returns
  resumes := by
    rw [List.head?_append_of_ne_nil _ hn]
    exact h.resumes

theorem result_ne_none (h : c.Course r t₀ running told rest) (hn : told ≠ []) : r ≠ .none := by
  obtain ⟨t, ht⟩ := Option.isSome_iff_exists.1 (List.getLast?_isSome.2 h.running_ne_nil)
  cases told with
  | nil => exact absurd rfl hn
  | cons u told => exact (h.returns t ht u rfl).1

end Course

/-- From the state in which a call is made the session runs the course of the call. -/
theorem Made.exists_course (h : c.Made t u) {us : List Interpreter}
    (hchain : (u :: us).IsChain Follows) (hs : ∀ t ∈ u :: us, t.Sound) :
    ∃ r running told rest, u :: us = running ++ told ++ rest ∧
      c.Course r t running told rest := by
  induction us using List.reverseRecOn with
  | nil => exact ⟨.none, [u], [], [], rfl, .start h .none⟩
  | append_singleton us v ih =>
    rw [← List.cons_append, List.isChain_append] at hchain
    rw [← List.cons_append, List.forall_mem_append] at hs
    obtain ⟨hchain, -, hlast⟩ := hchain
    obtain ⟨r, running, told, rest, heq, hcourse⟩ := ih hchain hs.1
    rw [← List.cons_append, heq]
    rw [heq] at hlast hs
    have hsound : ∀ t ∈ running ++ told ++ rest, t.Sound := hs.1
    cases rest with
    | cons w rest =>
      exact ⟨r, running, told, w :: rest ++ [v], List.append_assoc _ _ _,
        hcourse.later (List.cons_ne_nil w rest) v⟩
    | nil =>
      rw [List.append_nil] at hlast hsound ⊢
      cases told using List.reverseRecOn with
      | append_singleton told w =>
        have hn : told ++ [w] ≠ [] := List.append_ne_nil_of_right_ne_nil _ (List.cons_ne_nil w [])
        have hfollows : w.Follows v := hlast w (by simp) v rfl
        have htold : c.Told r w := hcourse.tells w (by simp)
        rcases htold.next (hcourse.result_ne_none hn) hfollows with hv | hv
        · exact ⟨r, running, told ++ [w] ++ [v], [], by simp, hcourse.wait hn hv⟩
        · exact ⟨r, running, told ++ [w], [v], rfl, hcourse.resume hn hv⟩
      | nil =>
        rw [List.append_nil] at hlast hsound ⊢
        obtain ⟨w, hw⟩ := Option.isSome_iff_exists.1 (List.getLast?_isSome.2 hcourse.running_ne_nil)
        have hmem : w ∈ running := List.mem_of_getLast? hw
        rcases (hcourse.runs w hmem).next (hsound w hmem) (hlast w hw v rfl) with hv | ⟨r', hr, hv⟩
        · exact ⟨r, running ++ [v], [], [], by simp, hcourse.run hv⟩
        · exact ⟨r', running, [v], [], by simp, hcourse.tell hw hr hv⟩

end RuleCall

/-- Only a rule at a call puts a frame on top of a rule. -/
theorem Frame.Turns.exists_call {frame child : Frame}
    (h : Frame.Turns below ws result frame input turn) (hm : turn.move = .call (.rule f) child) :
    ∃ (c : RuleCall) (f₀ : RuleFrame), frame = .rule f₀ ∧ result = .none ∧
      turn = ⟨.call (.rule c.caller) c.child, below, (f₀.entering ws).2, input⟩ ∧
      c.caller = (f₀.entering ws).1 ∧ c.below = below := by
  cases h with
  | document d h => cases h <;> cases hm
  | sequence d h => cases h <;> cases hm
  | statement d h => cases h <;> cases hm
  | block d h => cases h <;> cases hm
  | rule f₀ a ha h =>
    cases h with
    | call input rule success failure child hr hc =>
      exact ⟨⟨_, below, rule, success, failure, child, f₀.entered_entering ws, ha, hc⟩, f₀, rfl, hr,
        rfl, rfl, rfl⟩
    | _ => cases hm

theorem RuleCall.exists_made (hf : t.Follows u) (hstack : t.stack = ⟨.rule f, r⟩ :: below)
    (hlength : t.stack.length < u.stack.length) : r = .none ∧ ∃ c : RuleCall, c.Made t u := by
  cases hf with
  | still hu => rw [hu] at hlength; exact absurd hlength (Nat.lt_irrefl _)
  | start hnil => cases hnil.symm.trans hstack
  | step a below' input turn ho hs ht hu =>
    obtain ⟨rfl, rfl⟩ := List.cons.inj (hs.symm.trans hstack)
    have hturn := stepFrame_turns ht
    have hsame : turn.below.length = below'.length := by
      have hl := congrArg List.length hturn.unvoted_below
      rwa [unvoted, unvoted, List.length_map, List.length_map] at hl
    rw [hu, hs] at hlength
    cases hm : turn.move with
    | call f' child =>
      have hcontinues := hturn.continues
      rw [hm] at hcontinues
      obtain ⟨hsort, -⟩ := hcontinues
      cases f' with
      | rule f' =>
        obtain ⟨c, f₀, hf₀, hr, rfl, hcaller, rfl⟩ := hturn.exists_call hm
        cases hf₀
        obtain rfl : r = .none := hr
        exact ⟨rfl, c, ⟨f, hs, hcaller⟩, hu⟩
      | _ => cases hsort
    | leave r' =>
      rw [hm] at hlength
      have hdeliver : (deliver r' turn.below).length = turn.below.length := by
        cases turn.below <;> rfl
      have hlength : below'.length + 1 < (deliver r' turn.below).length := hlength
      omega
    | _ => rw [hm] at hlength; simp [stackAfter, hsame] at hlength

/-- The states of a session, the last of which has the rule `f` on top of the frames `below`, and
the frames `above` on top of it. If there are any, they belong to a call that the rule has made. If
there are none, the rule has been told how its call has ended. -/
inductive Called (states : List Interpreter) (f : RuleFrame) (below : List Activation) :
    List Activation → CallResult → Prop where
  | waiting (c : RuleCall) (earlier : List Interpreter) (t₀ : Interpreter)
      (running : List Interpreter) (a : Activation) (top : List Activation)
      (heq : states = earlier ++ t₀ :: running) (hc : c.Course .none t₀ running [] [])
      (hw : c.Waits (⟨.rule f, .none⟩ :: below)) : Called states f below (a :: top) .none
  | told (c : RuleCall) (r : CallResult) (earlier : List Interpreter) (t₀ : Interpreter)
      (running told : List Interpreter) (heq : states = earlier ++ t₀ :: (running ++ told))
      (hn : told ≠ []) (hc : c.Course r t₀ running told [])
      (hw : c.Waits (⟨.rule f, .none⟩ :: below)) : Called states f below [] r

namespace Called

variable {states : List Interpreter}

theorem run {a b : Activation} {top above : List Activation} {f' : RuleFrame}
    {below' : List Activation} (h : Called states f' below' (a :: top) result)
    (hu : u.stack = b :: above ++ ⟨.rule f, result⟩ :: below)
    (hsame : unvoted (⟨.rule f', result⟩ :: below') = unvoted (⟨.rule f, result⟩ :: below)) :
    Called (states ++ [u]) f below (b :: above) result := by
  cases h with
  | waiting c earlier t₀ running a top heq hc hw =>
    have hw' : c.Waits (⟨.rule f, .none⟩ :: below) := hsame.symm.trans hw
    refine .waiting c earlier t₀ (running ++ [u]) b above ?_ (hc.run ⟨b, above, _, hu, hw'⟩) hw'
    rw [heq, List.append_assoc, List.cons_append]

theorem still (h : Called states f below above result)
    (hu : u.stack = above ++ ⟨.rule f, result⟩ :: below) :
    Called (states ++ [u]) f below above result := by
  cases h with
  | waiting c earlier t₀ running a top heq hc hw =>
    exact run (.waiting c earlier t₀ running a top heq hc hw) hu rfl
  | told c r earlier t₀ running told heq hn hc hw =>
    refine .told c result earlier t₀ running (told ++ [u]) ?_ ?_ (hc.wait hn ⟨f, below, hu, hw⟩) hw
    · simp [heq]
    · exact List.append_ne_nil_of_left_ne_nil hn [u]

theorem tell {a : Activation} {r' : CallResult} (h : Called states f below [a] r')
    (hlast : states.getLast? = some t) (hstack : t.stack = a :: ⟨.rule f, r'⟩ :: below)
    (hr : result ≠ .none)
    (ht : stepFrame a (⟨.rule f, r'⟩ :: below) t.workspace input = .ok turn)
    (hm : turn.move = .leave result) (hu : u.stack = ⟨.rule f, result⟩ :: below) :
    Called (states ++ [u]) f below [] result := by
  cases h with
  | waiting c earlier t₀ running a top heq hc hw =>
    have hlast' : t ∈ running.getLast? := by
      rw [heq, List.getLast?_append, List.getLast?_cons] at hlast
      obtain ⟨w, hw⟩ := Option.isSome_iff_exists.1 (List.getLast?_isSome.2 hc.running_ne_nil)
      rw [hw] at hlast ⊢
      exact hlast
    refine .told c result earlier t₀ running [u] ?_ (List.cons_ne_nil u [])
      (hc.tell hlast' ⟨hr, a, _, input, turn, hstack, hw, ht, hm, hu⟩ ⟨f, below, hu, hw⟩) hw
    rw [heq, List.append_assoc, List.cons_append]

theorem next (hf : t.Follows u) (hlast : states.getLast? = some t)
    (hcalled : ∀ above f result below, t.stack = above ++ ⟨.rule f, result⟩ :: below →
      above ≠ [] ∨ result ≠ .none → Called states f below above result)
    (hu : u.stack = above ++ ⟨.rule f, result⟩ :: below) (hn : above ≠ [] ∨ result ≠ .none) :
    Called (states ++ [u]) f below above result := by
  cases hf with
  | still hstack => exact (hcalled above f result below (hstack ▸ hu) hn).still hu
  | start hnil hstack =>
    rw [hstack] at hu
    cases above with
    | nil => cases hu
    | cons b above => cases above <;> cases hu
  | step a rest input turn ho hs ht hstack =>
    have hturn := stepFrame_turns ht
    -- A rule among the frames below was there before, with frames on top of it.
    have hdeeper : ∀ b above, u.stack = b :: above ++ ⟨.rule f, result⟩ :: below →
        (∃ above', turn.below = above' ++ ⟨.rule f, result⟩ :: below) →
        Called (states ++ [u]) f below (b :: above) result := by
      rintro b above hu ⟨above', hbelow⟩
      have hsame := hturn.unvoted_below.symm
      rw [hbelow] at hsame
      obtain ⟨above₀, inner, rfl, -, hinner⟩ := exists_of_unvoted_eq hsame
      obtain ⟨f₀, below₀, rfl, -⟩ := exists_rule_of_unvoted_eq hinner
      have hbefore := hcalled (a :: above₀) f₀ result below₀ hs (.inl (List.cons_ne_nil _ _))
      exact hbefore.run hu hinner
    cases hm : turn.move with
    | leave r =>
      rw [hm, hturn.below_of_leave hm] at hstack
      cases rest with
      | nil =>
        rw [hstack] at hu
        cases above <;> cases hu
      | cons b rest =>
        obtain ⟨frame, r'⟩ := b
        have hstack' := hstack.symm.trans hu
        cases above with
        | nil =>
          cases hstack'
          have hr : result ≠ .none := hn.resolve_left fun h => h rfl
          have hbefore := hcalled [a] f r' below hs (.inl (List.cons_ne_nil _ _))
          exact hbefore.tell hlast hs hr ht hm hu
        | cons b above =>
          obtain ⟨-, rfl⟩ := List.cons.inj hstack'
          have hbefore := hcalled (a :: ⟨frame, r'⟩ :: above) f result below hs
            (.inl (List.cons_ne_nil _ _))
          exact hbefore.run hu rfl
    | call f' child =>
      have hstack' := hstack.symm.trans hu
      rw [hm] at hstack'
      cases above with
      | nil =>
        cases hstack'
        exact absurd rfl (hn.resolve_left fun h => h rfl)
      | cons b above =>
        obtain ⟨-, hstack'⟩ := List.cons.inj hstack'
        cases above with
        | cons b' above =>
          obtain ⟨-, hbelow⟩ := List.cons.inj hstack'
          exact hdeeper b (b' :: above) hu ⟨above, hbelow⟩
        | nil =>
          cases hstack'
          obtain ⟨c, f₀, hf₀, hr, rfl, hcaller, rfl⟩ := hturn.exists_call hm
          cases hm
          obtain ⟨frame, r⟩ := a
          obtain rfl : frame = .rule f₀ := hf₀
          obtain rfl : r = .none := hr
          obtain ⟨earlier, rfl⟩ := List.getLast?_eq_some_iff.1 hlast
          exact .waiting c earlier t [u] _ [] (List.append_assoc _ _ _)
            (.start ⟨⟨f₀, hs, hcaller⟩, hstack⟩ .none) rfl
    | _ =>
      have hstack' := hstack.symm.trans hu
      rw [hm] at hstack'
      cases above with
      | nil =>
        cases hstack'
        exact absurd rfl (hn.resolve_left fun h => h rfl)
      | cons b above => exact hdeeper b above hu ⟨above, (List.cons.inj hstack').2⟩

/-- Whatever state a session comes to, all frames on top of a rule belong to a call of it, and a
rule that has been told a result has made the call. -/
theorem of_chain (hchain : (states ++ [t]).IsChain Follows)
    (hstart : ∀ t₀ ∈ (states ++ [t]).head?, t₀.stack = [])
    (hstack : t.stack = above ++ ⟨.rule f, result⟩ :: below)
    (hn : above ≠ [] ∨ result ≠ .none) : Called (states ++ [t]) f below above result := by
  induction states using List.reverseRecOn generalizing t above f result below with
  | nil =>
    have hnil : t.stack = [] := hstart t rfl
    rw [hnil] at hstack
    cases above <;> cases hstack
  | append_singleton states t' ih =>
    obtain ⟨hchain', -, hlast⟩ := List.isChain_append.1 hchain
    have hfollows : t'.Follows t := hlast t' (by simp) t rfl
    have hstart' : ∀ t₀ ∈ (states ++ [t']).head?, t₀.stack = [] := by
      rw [List.head?_append_of_ne_nil _ (by simp)] at hstart
      exact hstart
    exact next hfollows List.getLast?_concat
      (fun above f result below hs hn => ih hchain' hstart' hs hn) hstack hn

end Called

namespace Interpreter

theorem Sound.exists_call (h : t.Sound) {rule : RuleId} {success failure : ActionId}
    (hstack : t.stack = ⟨.rule f, .none⟩ :: below)
    (ha : f.grammar.action f.current = .ok (.call rule success failure)) :
    ∃ c : RuleCall, c.caller = (f.entering t.workspace).1 ∧ c.below = below ∧ c.rule = rule ∧
      c.success = success ∧ c.failure = failure ∧
      (t.workspace.queue.hasOutput = false → ∀ input, t.step input = (.ok none,
        { t with
          workspace := (f.entering t.workspace).2
          stack := ⟨c.child, .none⟩ :: ⟨.rule c.caller, .none⟩ :: below }, input)) := by
  have hfit : f.Fits t.workspace.grammar :=
    h.fits ⟨.rule f, .none⟩ (hstack ▸ List.mem_cons_self)
  have ha' : (f.entering t.workspace).1.grammar.action (f.entering t.workspace).1.current =
      .ok (.call rule success failure) := by
    rw [f.grammar_entering, f.current_entering]
    exact ha
  obtain ⟨child, hc⟩ := Frame.exists_ofRule ((h.built _ hfit.grammar_eq).called_lt ha)
  rw [← f.grammar_entering t.workspace] at hc
  refine ⟨⟨_, below, rule, success, failure, child, f.entered_entering t.workspace, ha', hc⟩,
    rfl, rfl, rfl, rfl, rfl, fun ho input => ?_⟩
  have hturn : stepFrame ⟨.rule f, .none⟩ below t.workspace input =
      .ok ⟨.call (.rule (f.entering t.workspace).1) child, below, (f.entering t.workspace).2,
        input⟩ := by
    change f.step below t.workspace input .none = _
    rw [RuleFrame.step_eq, ha']
    change (f.entering t.workspace).1.act below _ input .none (.call rule success failure) = _
    rw [RuleFrame.act, hc]
    rfl
  rw [Interpreter.step, ho, hstack]
  simp only [hturn]
  rfl

theorem step_of_told {c : RuleCall} (hstack : t.stack = ⟨.rule f, r⟩ :: below)
    (hw : c.Waits (⟨.rule f, .none⟩ :: below)) (hr : r ≠ .none) (input : Cell Phrase) :
    t.step input =
      if t.workspace.queue.hasOutput then (.ok (some .outputAvailable), t, input)
      else (.ok none,
        { t with stack := ⟨.rule (f.goto (c.branch r)), .none⟩ :: below }, input) := by
  rw [Interpreter.step]
  split
  · rfl
  · rw [hstack]
    simp only [hw.stepFrame_eq hr]
    rfl

namespace Session

/-- A call runs its rule exactly once. A rule that has been told a result is on top, at the call
that it has made, whose child has been left with this result and nothing has been done since. The
next step takes the branch for the result as soon as there is no output. Whenever a rule puts a
frame on top of it, it has been told nothing, and the session goes on with the course of the call:
as long as the child is there the rule is below it and waits, then it is told, and then it goes on.
A rule that is at a call and has not been told anything makes that call. -/
theorem call_runs_rule_once (calls : List Call) (hb : ∀ call ∈ calls, call.Builds)
    {past future : List Interpreter} {t : Interpreter}
    (hv : new.visited calls = past ++ t :: future) :
    (∀ above f result below, t.stack = above ++ ⟨.rule f, result⟩ :: below → result ≠ .none →
      above = [] ∧ ∃ (c : RuleCall) (earlier : List Interpreter) (t₀ : Interpreter)
          (running told : List Interpreter),
        past ++ [t] = earlier ++ t₀ :: (running ++ told) ∧ told ≠ [] ∧
          c.Course result t₀ running told [] ∧
          f.grammar.action f.current = .ok (.call c.rule c.success c.failure) ∧
          ∀ input, t.step input =
            if t.workspace.queue.hasOutput then (.ok (some .outputAvailable), t, input)
            else (.ok none,
              { t with stack := ⟨.rule (f.goto (c.branch result)), .none⟩ :: below }, input)) ∧
      (∀ f r below u us, future = u :: us → t.stack = ⟨.rule f, r⟩ :: below →
        t.stack.length < u.stack.length →
        r = .none ∧ ∃ (c : RuleCall) (r' : CallResult) (running told rest : List Interpreter),
          future = running ++ told ++ rest ∧ c.Course r' t running told rest) ∧
      ∀ f below rule success failure, t.stack = ⟨.rule f, .none⟩ :: below →
        f.grammar.action f.current = .ok (.call rule success failure) →
        ∃ c : RuleCall, c.caller = (f.entering t.workspace).1 ∧ c.below = below ∧ c.rule = rule ∧
          c.success = success ∧ c.failure = failure ∧
          (t.workspace.queue.hasOutput = false → ∀ input, t.step input = (.ok none,
            { t with
              workspace := (f.entering t.workspace).2
              stack := ⟨c.child, .none⟩ :: ⟨.rule c.caller, .none⟩ :: below }, input)) := by
  have hsound : ∀ u ∈ past ++ t :: future, u.Sound := by
    intro u hu
    exact (recalls_visited new_sound trivial hb u (hv ▸ hu)).sound
  have hchain : (new.interpreter :: (past ++ t :: future)).IsChain Follows :=
    hv ▸ new_sound.chain_visited hb
  refine ⟨fun above f result below hstack hr => ?_, fun f r below u us hfuture hstack hlength => ?_,
    fun f below rule success failure hstack ha => ?_⟩
  · have hchain' : (new.interpreter :: past ++ [t]).IsChain Follows := by
      rw [← List.cons_append, List.append_cons] at hchain
      exact hchain.left_of_append
    have hcalled := Called.of_chain hchain' (by rintro _ ⟨⟩; rfl) hstack (.inr hr)
    generalize hstates : new.interpreter :: past ++ [t] = states at hcalled
    cases hcalled with
    | waiting => exact absurd rfl hr
    | told c r earlier t₀ running told heq hn hc hw =>
      obtain ⟨f', below', hcaller, -, ha⟩ := hw.exists_caller
      cases hcaller
      have heq := hstates.trans heq
      cases earlier with
      | nil =>
        obtain ⟨u, -, hmade⟩ := hc.made
        obtain ⟨f₀, hstack₀, -⟩ := hmade.before
        obtain ⟨rfl, -⟩ := List.cons.inj heq
        cases hstack₀
      | cons w earlier =>
        exact ⟨rfl, c, earlier, t₀, running, told, (List.cons.inj heq).2, hn, hc, ha,
          step_of_told hstack hw hr⟩
  · subst hfuture
    rw [← List.cons_append] at hchain
    have hnext : (t :: u :: us).IsChain Follows := hchain.right_of_append
    obtain ⟨hfollows, hrest⟩ := List.isChain_cons_cons.1 hnext
    obtain ⟨rfl, c, hmade⟩ := RuleCall.exists_made hfollows hstack hlength
    exact ⟨rfl, c, hmade.exists_course hrest fun u hu => hsound u (by simp [List.mem_cons.1 hu])⟩
  · exact (hsound t (by simp)).exists_call hstack ha

/-- A grammar whose statements call a rule with a mark, which keeps its terms until it is left. -/
def returningGrammar : Grammar where
  systemId := "returning"
  isScript := true
  actions := #[
    .call 0 1 2,
    .done true,
    .done false,
    .report .value .primary none true 1]
  rules := #[⟨"value", .actions 3, true, none, false⟩]
  contexts := #[⟨"statements", 0, none⟩]
  defaultContext := 0
  keywords := #[]
  keywordContexts := #[]
  errors := .nil

def returningCalls : List Call :=
  [.start "in", .force returningGrammar, .put endPhrase, .parse 9, .read, .parse 9]

/-- The interpreter stops with a value to be read, before the caller has gone on. -/
theorem call_runs_rule_once_suspended :
    let t := (new.performAll returningCalls).interpreter
    (∀ call ∈ returningCalls, call.Builds) ∧ t.workspace.queue.hasOutput = true ∧
      ∃ past f below, new.visited returningCalls = past ++ [t] ∧
        t.stack = ⟨.rule f, .success⟩ :: below ∧
        ∃ (c : RuleCall) (earlier : List Interpreter) (t₀ : Interpreter)
            (running told : List Interpreter),
          past ++ [t] = earlier ++ t₀ :: (running ++ told) ∧ told ≠ [] ∧
            c.Course .success t₀ running told [] := by
  intro t
  have hbuilt : returningGrammar.Built := Grammar.built_of_dangling? rfl
  have hb : ∀ call ∈ returningCalls, call.Builds := by simp [returningCalls, Call.Builds, hbuilt]
  have ho : t.workspace.queue.hasOutput = true := rfl
  have hv : new.visited returningCalls = (new.visited returningCalls).dropLast ++ [t] := rfl
  obtain ⟨f, below, hstack⟩ : ∃ f below, t.stack = ⟨.rule f, .success⟩ :: below := ⟨_, _, rfl⟩
  obtain ⟨hresults, -, -⟩ := call_runs_rule_once returningCalls hb hv
  obtain ⟨-, c, earlier, t₀, running, told, heq, hn, hc, -⟩ :=
    hresults [] f .success below hstack (by decide)
  exact ⟨hb, ho, _, f, below, hv, hstack, c, earlier, t₀, running, told, heq, hn, hc⟩

end Session

end Interpreter

end TermStream
