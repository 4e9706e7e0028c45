import TermStream.Proofs.Interpreter.NestedTurns
import TermStream.Proofs.Interpreter.OwnKeywords

namespace TermStream

open MarkedQueue

namespace MarkedQueue

variable {α : Type} {q : MarkedQueue α} {front back : List α}

/-- With one mark it makes no difference, but for the place of the mark, whether a value is put at
the mark or in front of the queue. -/
theorem Parts.single_mark (h : q.Parts front back) (hf : q.Fronted) (hc : q.markCount = 1) (v : α) :
    front = [] ∧ ∃ q₁ q₂ q₃, q.insertBeforeMark v = .ok q₁ ∧ q.insertAtMark v = .ok q₂ ∧
      q₁.toList = q₂.toList ∧ q₁.popMark = .ok q₃ ∧ q₂.popMark = .ok q₃ := by
  obtain ⟨m, hmarks⟩ := List.length_eq_one_iff.1 hc
  have hafter : m.after = none := hf m (by rw [hmarks]; rfl)
  have hfront := h.front_eq_nil hf hc
  have hinserted : (q.insertAfter none v).2.marks = [m] := (insertAfter_marks q none v).trans hmarks
  obtain ⟨pre, post, m', -, hactive, -⟩ := h
  obtain rfl : m' = m := by
    have hmem := List.mem_of_find?_eq_some hactive
    rw [hmarks] at hmem
    exact List.mem_singleton.1 hmem
  have hbefore : q.insertBeforeMark v = .ok { (q.insertAfter none v).2 with
      marks := moveOutermost (q.insertAfter none v).1 (q.insertAfter none v).2.marks } := by
    rw [insertBeforeMark, hmarks]
    rfl
  have hat : q.insertAtMark v = .ok (q.insertAfter none v).2 := by
    rw [MarkedQueue.insertAtMark, hactive]
    dsimp only
    rw [hafter]
  refine ⟨hfront, _, _, { (q.insertAfter none v).2 with marks := [] }, hbefore, hat,
    toList_congr rfl rfl, ?_, ?_⟩
  · rw [hinserted]
    rfl
  · rw [popMark, hinserted]

end MarkedQueue

variable {below : List Activation} {ws : Workspace} {input : Cell Phrase} {turn : Turn}
  {result : CallResult}

/-- A step after which a frame looks for the first token of a statement takes the mark, or it is a
step of that frame that adds to the end of the queue at most. -/
def Turn.Leads (frame : Frame) (ws : Workspace) (below : List Activation) (turn : Turn) : Prop :=
  turn.below = below ∧
    (¬frame.Leading ∧ turn.workspace.queue = ws.queue.pushMark ∨
      frame.Leading ∧
        (turn.workspace.queue = ws.queue ∨ ∃ t, turn.workspace.queue = ws.queue.append t))

theorem DocumentFrame.Turns.turn_leads {f : DocumentFrame} {f' : Frame}
    (h : f.Turns below ws input turn) (hm : turn.move.top? = some f') (hf : f'.Leading) :
    turn.Leads (.document f) ws below := by
  cases h with
  | hungry hp =>
    cases hm
    exact ⟨rfl, .inr ⟨hf, .inl rfl⟩⟩
  | mark input hp hs =>
    have hn : ¬(Frame.document f).Leading := fun hl => nomatch hp.symm.trans hl
    exact ⟨rfl, .inl ⟨hn, rfl⟩⟩
  | passLeading p hp hk => exact ⟨rfl, .inr ⟨hp, .inr ⟨_, rfl⟩⟩⟩
  | wait input hp hg => cases hm; cases hp.symm.trans hf
  | passProperties p hp hk => cases hm; cases hp.symm.trans hf
  | passExpect p property hp hk => cases hm; cases hp.symm.trans hf
  | systemId p hp hk hs => cases hm; cases hp.symm.trans hf
  | leftover p hp hk hs => cases hm; cases hp.symm.trans hf
  | load input g hp hg => cases hm
  | close p g context hp hk => cases hm
  | stray p g context hp hk => cases hm
  | _ => cases hm; cases hf

theorem StatementFrame.Turns.turn_leads {f : StatementFrame} {f' : Frame}
    (h : f.Turns below ws result input turn) (hm : turn.move.top? = some f') (hf : f'.Leading) :
    turn.Leads (.statement f) ws below := by
  cases h with
  | hungry hp =>
    cases hm
    exact ⟨rfl, .inr ⟨hf, .inl rfl⟩⟩
  | mark input hp =>
    have hn : ¬(Frame.statement f).Leading := fun hl => nomatch hp.symm.trans hl
    exact ⟨rfl, .inl ⟨hn, rfl⟩⟩
  | passLeading p hp hk => exact ⟨rfl, .inr ⟨hp, .inr ⟨_, rfl⟩⟩⟩
  | passTail p hp hk => cases hm; cases hp.symm.trans hf
  | leftover p first hp hk hfirst => cases hm; cases hp.symm.trans hf
  | body input hp => cases hm; cases hf
  | giveUp p ws₁ hp hk hm' => cases hm
  | enter p ws₁ ws₂ entry hp hk hs hm' he => cases hm
  | finish p role hp hk hr => cases hm
  | breakOff p hp hk => cases hm
  | block p hp hk => cases hm

theorem Frame.Turns.turn_leads {frame f' : Frame} (h : Frame.Turns below ws result frame input turn)
    (hm : turn.move.top? = some f') (hf : f'.Leading) : turn.Leads frame ws below := by
  have hsort := h.continues.sort_eq hm
  cases h with
  | document d h => exact h.turn_leads hm hf
  | statement d h => exact h.turn_leads hm hf
  | sequence d h => cases f' <;> first | exact hf.elim | cases hsort
  | block d h => cases f' <;> first | exact hf.elim | cases hsort
  | rule d a ha h => cases f' <;> first | exact hf.elim | cases hsort

theorem Move.stack_of_top? {move : Move} {f : Frame} (h : move.top? = some f) :
    (Interpreter.stackAfter move below).2 = ⟨f, .none⟩ :: below := by
  cases move with
  | call f child => cases h
  | leave r => cases h
  | _ => cases h; rfl

theorem Frame.Turns.leads_on_top {frame : Frame} {a : Activation} {stack : List Activation}
    (h : Frame.Turns below ws result frame input turn) (hs : Shaped (⟨frame, result⟩ :: below))
    (hstack : (Interpreter.stackAfter turn.move turn.below).2 = a :: stack)
    (hl : a.frame.Leading) : stack = below ∧ turn.Leads frame ws below := by
  have htop : turn.move.top? = some a.frame :=
    h.head (Q := fun f => f.Leading → turn.move.top? = some f) hs (fun f hm _ => hm)
      (fun f child hm hf => absurd hf (h.called_not_leading hm))
      (fun f r hm ha hf => absurd hf ha.not_leading) a (by rw [hstack]; rfl) hl
  have hleads := h.turn_leads htop hl
  rw [Move.stack_of_top? htop] at hstack
  exact ⟨(List.cons.inj hstack).2.symm.trans hleads.1, hleads⟩

def Frame.Begins (p : Phrase) : Frame → Prop
  | .statement _ => p.kind = .significant ∨ p.kind = .startBlock
  | .document _ => p.kind = .significant ∧ p.isWord doctypeKeyword = true
  | _ => False

def Workspace.startOf (ws : Workspace) (p : Phrase) : Term :=
  .event .statementStart .unknown (ws.markedStart?.getD p.start)

theorem Workspace.prefix_report (hq : ws.Queued) (t : Term) :
    ws.queue.toList <+: (ws.report t).queue.toList :=
  ⟨_, (hq.sound.toList_append _).symm⟩

/-- A step that finds the first token of a statement reports its start and gives up the mark. -/
theorem Frame.Turns.begins {frame : Frame} {p : Phrase}
    (h : Frame.Turns below ws result frame (some p) turn) (hl : frame.Leading)
    (hb : frame.Begins p) (hq : ws.Queued) :
    ∃ ws₁ ws₂, ws.reportStatementStart (ws.startOf p) = .ok ws₁ ∧ ws₁.popMark = .ok ws₂ ∧
      ws₂.queue.toList <+: turn.workspace.queue.toList := by
  cases h with
  | statement f h =>
    have hp : f.phase = .leading := hl
    cases h with
    | enter p ws₁ ws₂ entry hp hk hs hm he => exact ⟨ws₁, ws₂, hs, hm, List.prefix_refl _⟩
    | passLeading p hp hk => rcases hb with hb | hb <;> simp [hb] at hk
    | giveUp p ws₁ hp hk hm => rcases hb with hb | hb <;> simp [hb] at hk
    | mark input hs => cases hp.symm.trans hs
    | body input hs => cases hp.symm.trans hs
    | passTail p hs hk => cases hp.symm.trans hs
    | finish p role hs hk hr => cases hp.symm.trans hs
    | breakOff p hs hk => cases hp.symm.trans hs
    | block p hs hk => cases hp.symm.trans hs
    | leftover p first hs hk hf => cases hp.symm.trans hs
  | document f h =>
    have hp : f.phase = .leading := hl
    obtain ⟨hkind, hword⟩ := hb
    cases h with
    | declare p ws₁ ws₂ hp hk hw hs hm =>
      have hq₂ := ((Workspace.wraps_reportStatementStart rfl hs).trans
        (Workspace.wraps_popMark hm) hq).1
      let object := (Term.event .objectStart .unknown p.start).named (some doctypeName)
      have hq₃ := (ws₂.wraps_report object hq₂).1
      have htaken : ((ws₂.report object).consume p).Queued := ⟨hq₃.sound, hq₃.uncommitted⟩
      exact ⟨ws₁, ws₂, hs, hm,
        (Workspace.prefix_report hq₂ object).trans (Workspace.prefix_report htaken _)⟩
    | passLeading p hp hk => simp [hkind] at hk
    | select p ws₁ hp hk hw hm => cases (hw hkind).symm.trans hword
    | _ => simp_all
  | sequence f h => exact hl.elim
  | block f h => exact hl.elim
  | rule f a ha h => exact hl.elim

namespace Interpreter

/-- From the state `t₀` the frame on top of the frames `below` has taken its mark. Through the
states `between` up to `t` it has been looking for the first token of a statement, and the terms
`since` have come behind the mark. -/
structure Marked (t₀ : Interpreter) (between : List Interpreter) (t : Interpreter)
    (below : List Activation) (since : List Term) : Prop where
  before : ∃ a, t₀.stack = a :: below ∧ ¬a.frame.Leading
  mark : ∀ u ∈ (between ++ [t]).head?, u.workspace.queue = t₀.workspace.queue.pushMark
  leading : ∀ u ∈ between ++ [t], ∃ a, u.stack = a :: below ∧ a.frame.Leading
  parts : t.workspace.queue.Parts t₀.workspace.queue.toList since

/-- If the frame on top looks for the first token of a statement, it has taken its mark in a state
of `past`. -/
structure Recorded (past : List Interpreter) (t : Interpreter) : Prop where
  sound : t.Sound
  fronted : t.workspace.queue.Fronted
  marked : ∀ a below, t.stack = a :: below → a.frame.Leading →
    ∃ earlier t₀ between since, past = earlier ++ t₀ :: between ∧ Marked t₀ between t below since

variable {t t' t₀ : Interpreter} {past between : List Interpreter} {since : List Term}

theorem Marked.next (h : Marked t₀ between t below since)
    (hstack : ∃ a, t'.stack = a :: below ∧ a.frame.Leading) {since' : List Term}
    (hp : t'.workspace.queue.Parts t₀.workspace.queue.toList since') :
    Marked t₀ (between ++ [t]) t' below since' where
  before := h.before
  mark := by
    intro u hu
    apply h.mark u
    cases between <;> exact hu
  leading := by
    intro u hu
    rcases List.mem_append.1 hu with hu | hu
    · exact h.leading u hu
    · exact List.mem_singleton.1 hu ▸ hstack
  parts := hp

theorem Recorded.again (h : Recorded past t) : Recorded (past ++ [t]) t := by
  refine ⟨h.sound, h.fronted, fun a below hs hl => ?_⟩
  obtain ⟨earlier, t₀, between, since, rfl, hm⟩ := h.marked a below hs hl
  refine ⟨earlier, t₀, between ++ [t], since, ?_, hm.next ⟨a, hs, hl⟩ hm.parts⟩
  rw [List.append_assoc]
  rfl

theorem Recorded.congr (h : Recorded past t) (hsound : t'.Sound) (hstack : t'.stack = t.stack)
    (hq : t'.workspace.queue = t.workspace.queue) : Recorded past t' := by
  refine ⟨hsound, hq ▸ h.fronted, fun a below hs hl => ?_⟩
  obtain ⟨earlier, t₀, between, since, rfl, hm⟩ := h.marked a below (hstack ▸ hs) hl
  refine ⟨earlier, t₀, between, since, rfl, hm.before, ?_, ?_, hq ▸ hm.parts⟩
  · intro u hu
    cases between with
    | nil =>
      cases hu
      exact hq.trans (hm.mark t rfl)
    | cons u' between => exact hm.mark u hu
  · intro u hu
    rcases List.mem_append.1 hu with hu | hu
    · exact hm.leading u (List.mem_append_left _ hu)
    · exact List.mem_singleton.1 hu ▸ ⟨a, hs, hl⟩

theorem Recorded.step (h : Recorded past t) (input : Cell Phrase) :
    Recorded (past ++ [t]) (t.step input).2.1 := by
  have hs := step_steps t input
  have hsound := (h.sound.steps hs).2
  generalize t.step input = r at hs hsound ⊢
  obtain ⟨outcome, t', input'⟩ := r
  cases hs with
  | output ho => exact h.again
  | finish ho hstack =>
    refine ⟨hsound, h.fronted, fun a below hs hl => ?_⟩
    cases hstack.symm.trans hs
  | lose a below e ho hs he =>
    obtain ⟨turn, ht⟩ := h.sound.exists_turn hs input'
    rw [he] at ht
    cases ht
  | move a below turn ho hs ht =>
    have hturn := stepFrame_turns ht
    have hshaped := h.sound.shaped
    rw [hs] at hshaped
    refine ⟨hsound, hturn.keepsFront h.sound.queued ho h.fronted, fun b stack hstack hl => ?_⟩
    obtain ⟨rfl, -, hqueue⟩ := hturn.leads_on_top hshaped hstack hl
    rcases hqueue with ⟨hn, hq⟩ | ⟨hleading, hq⟩
    · refine ⟨past, t, [], [], rfl, ⟨a, hs, hn⟩, ?_, ?_, ?_⟩
      · rintro u ⟨⟩
        exact hq
      · intro u hu
        exact List.mem_singleton.1 hu ▸ ⟨b, hstack, hl⟩
      · exact hq ▸ h.sound.queued.sound.pushMark_parts
    · obtain ⟨earlier, t₀, between, since, rfl, hm⟩ := h.marked a stack hs hleading
      obtain ⟨since', hp⟩ :
          ∃ since', turn.workspace.queue.Parts t₀.workspace.queue.toList since' := by
        rcases hq with hq | ⟨term, hq⟩
        · exact ⟨since, hq ▸ hm.parts⟩
        · exact ⟨since ++ [term], hq ▸ hm.parts.append term⟩
      refine ⟨earlier, t₀, between ++ [t], since', ?_, hm.next ⟨b, hstack, hl⟩ hp⟩
      rw [List.append_assoc]
      rfl

theorem Marked.exists_report (hm : Marked t₀ between t below since) (h : Recorded past t)
    (start : Term) : ∃ ws, t.workspace.reportStatementStart start = .ok ws ∧
      ws.queue.toList = t₀.workspace.queue.toList ++ t.workspace.stamp start :: since := by
  have hmarks : 0 < t.workspace.queue.markCount := List.length_pos_iff.2 hm.parts.marks_ne_nil
  obtain ⟨ws₁, ws₂, hs, hp⟩ := Workspace.exists_statementStart h.sound.queued hmarks start
  obtain ⟨q, rfl, hlist⟩ := Workspace.toList_startStatement h.sound.queued h.fronted hm.parts hs hp
  obtain ⟨q', hq', he⟩ := Workspace.popMark_ok hp
  refine ⟨ws₁, hs, ?_⟩
  rw [← toList_popMark hq', ← hlist]
  exact congrArg (fun ws : Workspace => ws.queue.toList) he.symm

/-- The step that finds the first token of a statement reports the start there. -/
theorem Marked.prefix_step (hm : Marked t₀ between t below since) (h : Recorded past t)
    {a : Activation} (hstack : t.stack = a :: below) (hl : a.frame.Leading) {p : Phrase}
    (hbegins : a.frame.Begins p) :
    t₀.workspace.queue.toList ++ t.workspace.stamp (t.workspace.startOf p) :: since <+:
      (t.step (some p)).2.1.workspace.queue.toList := by
  have hs := step_steps t (some p)
  generalize t.step (some p) = r at hs ⊢
  obtain ⟨outcome, t', input'⟩ := r
  cases hs with
  | output ho => exact absurd ((hasOutput_iff h.sound.queued.sound).1 ho).1 hm.parts.marks_ne_nil
  | finish ho hnil => cases hnil.symm.trans hstack
  | lose b stack e ho hs he =>
    obtain ⟨turn, ht⟩ := h.sound.exists_turn hs (some p)
    rw [he] at ht
    cases ht
  | move b stack turn ho hs ht =>
    obtain ⟨rfl, rfl⟩ := List.cons.inj (hstack.symm.trans hs)
    obtain ⟨ws₁, ws₂, hstart, hp, hprefix⟩ :=
      (stepFrame_turns ht).begins hl hbegins h.sound.queued
    obtain ⟨q, rfl, hlist⟩ :=
      Workspace.toList_startStatement h.sound.queued h.fronted hm.parts hstart hp
    exact hlist ▸ hprefix

def Along (P : List Interpreter → Interpreter → Prop) (past : List Interpreter) :
    List Interpreter → Prop
  | [] => True
  | t :: future => P past t ∧ Along P (past ++ [t]) future

variable {P : List Interpreter → Interpreter → Prop} {states states' : List Interpreter}

theorem along_append :
    Along P past (states ++ states') ↔ Along P past states ∧ Along P (past ++ states) states' := by
  induction states generalizing past with
  | nil => simp [Along]
  | cons t states ih => simp [Along, ih, and_assoc]

theorem Along.at_state (h : Along P past (states ++ t :: states')) : P (past ++ states) t :=
  (along_append.1 h).2.1

theorem Recorded.run (h : Recorded past t) (fuel : Nat) (input : Cell Phrase) :
    Along Recorded past (t.visited fuel input) ∧
      Recorded (past ++ t.visited fuel input) (t.run fuel input).2.1 := by
  induction fuel using Nat.strongRecOn generalizing past t input with
  | ind fuel ih =>
    cases fuel with
    | zero => exact ⟨⟨h, trivial⟩, h.again⟩
    | succ fuel =>
      obtain ⟨n, hn, hv, hr⟩ := visited_succ fuel t input
      obtain ⟨halong, hlast⟩ := ih n (Nat.lt_succ_of_le hn) (h.step input) (t.step input).2.2
      rw [hv, hr]
      refine ⟨⟨h, halong⟩, ?_⟩
      rwa [List.append_assoc] at hlast

namespace Session

variable {s : Session}

theorem queue_perform {call : Call} (hs : s.Sound) (hc : ∀ fuel, call ≠ .parse fuel) :
    (s.perform call).interpreter.workspace.queue = s.interpreter.workspace.queue ∨
      s.interpreter.workspace.queue.marks = [] ∧
        (s.perform call).interpreter.workspace.queue.marks = [] := by
  cases call with
  | parse fuel => exact absurd rfl (hc fuel)
  | start source =>
    rw [perform, Interpreter.start]
    split <;> exact .inl rfl
  | force g =>
    rw [perform, forceGrammar]
    split <;> exact .inl rfl
  | provide g =>
    rw [perform, provideGrammar]
    split <;> exact .inl rfl
  | put p =>
    rw [perform, put]
    split <;> exact .inl rfl
  | read =>
    rw [perform, Session.read]
    split
    · next term t hr =>
      obtain ⟨q, rfl, -, hm, hm', -⟩ := hs.interpreter.read_eq hr
      exact .inr ⟨hm, hm'⟩
    · exact .inl rfl

theorem recorded_perform {call : Call} (h : Recorded past s.interpreter) (hs : s.Sound)
    (hb : call.Builds) (hc : ∀ fuel, call ≠ .parse fuel) :
    Recorded past (s.perform call).interpreter := by
  have hsound := (hs.perform hb).interpreter
  have hfront : (s.perform call).interpreter.workspace.queue.Fronted := by
    rcases queue_perform hs hc with hq | ⟨-, hm⟩
    · exact hq ▸ h.fronted
    · exact empty_fronted.of_marks_eq hm
  rcases stack_perform hs hc with hstack | hstack
  · rcases queue_perform hs hc with hq | ⟨hm, -⟩
    · exact h.congr hsound hstack hq
    · refine ⟨hsound, hfront, fun a below hs hl => ?_⟩
      obtain ⟨earlier, t₀, between, since, -, hmarked⟩ := h.marked a below (hstack ▸ hs) hl
      exact absurd hm hmarked.parts.marks_ne_nil
  · refine ⟨hsound, hfront, fun a below hs hl => ?_⟩
    rw [hstack] at hs
    cases hs
    cases hl

theorem recorded_visitedBy {call : Call} (h : Recorded past s.interpreter) (hs : s.Sound)
    (hb : call.Builds) :
    Along Recorded past (s.visitedBy call) ∧
      Recorded (past ++ s.visitedBy call) (s.perform call).interpreter := by
  by_cases hc : ∀ fuel, call ≠ .parse fuel
  · have hp := recorded_perform h hs hb hc
    rw [visitedBy_eq s hc]
    exact ⟨⟨hp, trivial⟩, hp.again⟩
  · obtain ⟨fuel, rfl⟩ : ∃ fuel, call = .parse fuel := by simpa using hc
    rcases visitedBy_parse s fuel with ⟨hv, hp⟩ | ⟨hv, hp⟩
    · rw [hv, hp]
      exact ⟨⟨h, trivial⟩, h.again⟩
    · rw [hv, hp]
      exact h.run fuel s.cell

theorem recorded_visited {calls : List Call} (h : Recorded past s.interpreter) (hs : s.Sound)
    (hb : ∀ call ∈ calls, call.Builds) : Along Recorded past (s.visited calls) := by
  induction calls generalizing s past with
  | nil => exact ⟨h, trivial⟩
  | cons call calls ih =>
    have hcall := hb call List.mem_cons_self
    obtain ⟨hvisited, hnext⟩ := recorded_visitedBy h hs hcall
    rw [visited, along_append]
    exact ⟨hvisited, ih hnext (hs.perform hcall) fun c hc => hb c (List.mem_cons_of_mem _ hc)⟩

/-- In a session with built grammars, in every state in which a frame looks for the first token of a
statement, that frame has taken its mark in an earlier state and been on top since. If it reports
the start of the statement then, the start comes right behind the terms that were in the queue at
that time, all of which are there still, and right in front of those that were reported since; and
so it does in the step that finds the first token. If there is one mark, nothing was in the queue at
that time, and it makes no difference whether the start is put at the mark or in front of the queue.
-/
theorem statement_starts_at_mark (calls : List Call) (hb : ∀ call ∈ calls, call.Builds)
    {past future : List Interpreter} {t : Interpreter}
    (hv : new.visited calls = past ++ t :: future)
    {a : Activation} {below : List Activation} (hstack : t.stack = a :: below)
    (hl : a.frame.Leading) :
    ∃ earlier t₀ between since, past = earlier ++ t₀ :: between ∧
      Marked t₀ between t below since ∧
      t.workspace.queue.toList = t₀.workspace.queue.toList ++ since ∧
      (∀ start, ∃ ws, t.workspace.reportStatementStart start = .ok ws ∧
        ws.queue.toList = t₀.workspace.queue.toList ++ t.workspace.stamp start :: since) ∧
      (∀ p, a.frame.Begins p →
        t₀.workspace.queue.toList ++ t.workspace.stamp (t.workspace.startOf p) :: since <+:
          (t.step (some p)).2.1.workspace.queue.toList) ∧
      (t.workspace.queue.markCount = 1 → t₀.workspace.queue.toList = [] ∧
        ∀ start, ∃ q₁ q₂ q₃, t.workspace.queue.insertBeforeMark start = .ok q₁ ∧
          t.workspace.queue.insertAtMark start = .ok q₂ ∧ q₁.toList = q₂.toList ∧
          q₁.popMark = .ok q₃ ∧ q₂.popMark = .ok q₃) := by
  have hnew : Recorded [] new.interpreter := ⟨Interpreter.new_sound, empty_fronted, nofun⟩
  have halong := recorded_visited hnew new_sound hb
  rw [hv] at halong
  have h : Recorded past t := halong.at_state
  obtain ⟨earlier, t₀, between, since, hpast, hm⟩ := h.marked a below hstack hl
  refine ⟨earlier, t₀, between, since, hpast, hm, hm.parts.toList_eq, ?_, ?_, ?_⟩
  · exact hm.exists_report h
  · exact fun p hp => hm.prefix_step h hstack hl hp
  · intro hone
    refine ⟨hm.parts.front_eq_nil h.fronted hone, fun start => ?_⟩
    exact (hm.parts.single_mark h.fronted hone start).2

end Session

/-- A grammar whose statements are blocks inside a rule with a mark. -/
def bracedGrammar : Grammar where
  systemId := "braced"
  isScript := true
  actions := #[.call 0 1 1, .done true, .call 1 1 1]
  rules := #[⟨"marked", .actions 2, true, none, false⟩, ⟨"braces", .block 0, false, none, false⟩]
  contexts := #[⟨"statements", 0, none⟩]
  defaultContext := 0
  keywords := #[]
  keywordContexts := #[]
  errors := .nil

def bracedCalls : List Call :=
  [.start "in", .force bracedGrammar,
    .put (.ofToken .startBlock ⟨.simple .leftCurly, "\x7b", .start, ⟨1, 2, 1⟩, .nil⟩), .parse 9,
    .read, .parse 9,
    .put (.ofToken .ignorable ⟨.simple .whitespace, " ", ⟨1, 2, 1⟩, ⟨1, 3, 2⟩, .nil⟩), .parse 9]

/-- The blank is behind two marks, and the brace in front of the second one. -/
theorem Session.statement_starts_at_mark_nested :
    let t := (Session.new.performAll bracedCalls).interpreter
    (∀ call ∈ bracedCalls, call.Builds) ∧ t.workspace.queue.markCount = 2 ∧
      t.workspace.queue.toList.map Term.kind = [.blockStart, .ignorable] ∧
      ∃ past t₀ between below since,
        Session.new.visited bracedCalls = past ++ t₀ :: between ++ [t] ∧
        Marked t₀ between t below since ∧
        ∀ start, ∃ ws, t.workspace.reportStatementStart start = .ok ws ∧
          ws.queue.toList = t₀.workspace.queue.toList ++ t.workspace.stamp start :: since := by
  intro t
  have hbuilt : bracedGrammar.Built := Grammar.built_of_dangling? rfl
  have hb : ∀ call ∈ bracedCalls, call.Builds := by simp [bracedCalls, Call.Builds, hbuilt]
  have hv : Session.new.visited bracedCalls = (Session.new.visited bracedCalls).take 23 ++ [t] :=
    rfl
  obtain ⟨past, t₀, between, since, hpast, hm, -, hreport, -⟩ :=
    Session.statement_starts_at_mark bracedCalls hb hv (t := t) rfl rfl
  exact ⟨hb, rfl, rfl, past, t₀, between, _, since, hv.trans (by rw [hpast]), hm, hreport⟩

end Interpreter

end TermStream
