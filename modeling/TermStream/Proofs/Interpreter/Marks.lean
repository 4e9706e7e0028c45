import TermStream.Proofs.Interpreter.Waiting
import TermStream.Proofs.Queue.Marks

namespace TermStream

open MarkedQueue

namespace Workspace

variable {ws ws₁ ws₂ : Workspace} {t : Term} {front back : List Term}

/-- Going from one workspace to the other keeps the outermost mark in front of the queue. -/
def KeepsFront (ws ws' : Workspace) : Prop := ws.queue.Fronted → ws'.queue.Fronted

theorem KeepsFront.of_marks_eq (h : ws₁.queue.marks = ws.queue.marks) : ws.KeepsFront ws₁ :=
  fun hf => hf.of_marks_eq h

theorem KeepsFront.trans (h : ws.KeepsFront ws₁) (h' : ws₁.KeepsFront ws₂) : ws.KeepsFront ws₂ :=
  fun hf => h' (h hf)

@[simp] theorem marks_report (ws : Workspace) (t : Term) :
    (ws.report t).queue.marks = ws.queue.marks :=
  append_marks _ _

@[simp] theorem marks_take (ws : Workspace) (p : Phrase) (kind : TermKind) (role : Role) :
    (ws.take p kind role).queue.marks = ws.queue.marks :=
  append_marks _ _

@[simp] theorem marks_skip (ws : Workspace) (p : Phrase) :
    (ws.skip p).queue.marks = ws.queue.marks :=
  append_marks _ _

@[simp] theorem marks_reportError (ws : Workspace) (code : ErrorCode) (args : List String)
    (start stop : Position) : (ws.reportError code args start stop).queue.marks = ws.queue.marks :=
  append_marks _ _

theorem keepsFront_popMark (h : ws.popMark = .ok ws₁) : ws.KeepsFront ws₁ := by
  obtain ⟨q, hq, rfl⟩ := popMark_ok h
  obtain ⟨m, hm, -⟩ := MarkedQueue.popMark_ok hq
  exact fun hf => hf.of_marks_cons hm

theorem keepsFront_reportAtMark (h : ws.reportAtMark t = .ok ws₁) : ws.KeepsFront ws₁ := by
  rcases reportAtMark_ok h with rfl | ⟨q, hq, rfl⟩
  · exact .of_marks_eq (marks_report ws t)
  · exact .of_marks_eq (insertAtMark_marks hq)

theorem keepsFront_startStatement (hs : ws.reportStatementStart t = .ok ws₁)
    (hm : ws₁.popMark = .ok ws₂) : ws.KeepsFront ws₂ := by
  obtain ⟨q, hq, rfl⟩ := reportStatementStart_cases hs
  rcases hq with ⟨hc, hq⟩ | ⟨-, hq⟩
  · obtain ⟨q₂, hp, rfl⟩ := popMark_ok hm
    obtain ⟨m, hmarks, -⟩ := MarkedQueue.popMark_ok hp
    obtain ⟨i, hi⟩ := insertBeforeMark_marks hq
    have hl : q₂.marks = [] := by
      apply List.length_eq_zero_iff.1
      have hlen := moveOutermost_length i ws.queue.marks
      rw [← hi, hmarks, List.length_cons] at hlen
      exact Nat.succ.inj (hlen.trans hc)
    intro _ m' hmem
    change m' ∈ q₂.marks.getLast? at hmem
    rw [hl] at hmem
    cases hmem
  · exact (KeepsFront.of_marks_eq (insertAtMark_marks hq)).trans (keepsFront_popMark hm)

theorem toList_startStatement (hq : ws.Queued) (hf : ws.queue.Fronted)
    (hp : ws.queue.Parts front back) (hs : ws.reportStatementStart t = .ok ws₁)
    (hm : ws₁.popMark = .ok ws₂) :
    ∃ q, ws₂ = { ws with queue := q } ∧ q.toList = front ++ ws.stamp t :: back := by
  obtain ⟨q, hins, rfl⟩ := reportStatementStart_cases hs
  obtain ⟨q₂, hpop, rfl⟩ := popMark_ok hm
  refine ⟨q₂, rfl, ?_⟩
  rw [toList_popMark hpop]
  rcases hins with ⟨hc, hins⟩ | ⟨-, hins⟩
  · obtain rfl := hp.front_eq_nil hf hc
    rw [(hq.sound.insertBeforeMark hins).2, hp.toList_eq]
    rfl
  · exact hp.insertAtMark hins

theorem exists_parts_of_startStatement (hq : ws.Queued)
    (hs : ws.reportStatementStart t = .ok ws₁) : ∃ front back, ws.queue.Parts front back := by
  have hne : ws.queue.marks ≠ [] := by
    intro hn
    simp [reportStatementStart, markCount, MarkedQueue.insertAtMark, activeMark?, hn, bind,
      Except.bind] at hs
  obtain ⟨m, ha⟩ := hq.uncommitted.exists_activeMark hne
  exact hq.sound.exists_parts ha

end Workspace

open Workspace

variable {below : List Activation} {ws : Workspace} {input : Cell Phrase} {turn : Turn}
  {result : CallResult}

namespace DocumentFrame

@[simp] theorem marks_announce (ws : Workspace) (g : Grammar) :
    (announce ws g).queue.marks = ws.queue.marks := by
  unfold announce
  split
  · dsimp only
    split <;> exact marks_report _ _
  · rfl

@[simp] theorem marks_chooseContext (f : DocumentFrame) (ws : Workspace) (g : Grammar) :
    (f.chooseContext ws g).2.queue.marks = ws.queue.marks := by
  unfold chooseContext
  split
  · rfl
  · split
    · rfl
    · exact marks_reportError _ _ _ _ _

@[simp] theorem marks_reportString (f : DocumentFrame) (ws : Workspace) (p : Phrase)
    (property : DoctypeProperty) :
    (f.reportString ws p property).2.queue.marks = ws.queue.marks := by
  simp [reportString]

theorem Turns.keepsFront {f : DocumentFrame} (h : f.Turns below ws input turn)
    (hp : ws.KeepsFront ws.pushMark) : ws.KeepsFront turn.workspace := by
  cases h with
  | mark input hphase hs => exact hp
  | declare p ws₁ ws₂ hphase hk hw hs hm =>
    exact (keepsFront_startStatement hs hm).trans (.of_marks_eq (by simp [stay]))
  | select p ws₁ hphase hk hw hm => exact keepsFront_popMark hm
  -- no other step takes a mark or gives it up
  | _ => exact .of_marks_eq (by simp [stay])

end DocumentFrame

theorem StatementFrame.Turns.keepsFront {f : StatementFrame}
    (h : f.Turns below ws result input turn) (hp : ws.KeepsFront ws.pushMark) :
    ws.KeepsFront turn.workspace := by
  cases h with
  | mark input hphase => exact hp
  | giveUp p ws₁ hphase hk hm => exact keepsFront_popMark hm
  | enter p ws₁ ws₂ entry hphase hk hs hm he => exact keepsFront_startStatement hs hm
  | leftover p first hphase hk hf =>
    cases first <;> exact .of_marks_eq (by simp)
  | _ => exact .of_marks_eq (by simp)

namespace RuleFrame

variable {f : RuleFrame} {ws₁ : Workspace}

@[simp] theorem queue_dropKeywords (f : RuleFrame) (ws : Workspace) :
    (f.dropKeywords ws).2.queue = ws.queue := by
  unfold dropKeywords
  split <;> rfl

theorem queue_leave (h : f.leave ws = .ok ws₁) :
    ∃ ws₀, (ws.popMark = .ok ws₀ ∨ ws₀ = ws) ∧ ws₁.queue = ws₀.queue ∧
      ws₁.lastEnd = ws₀.lastEnd := by
  obtain ⟨ws₀, hm, rfl⟩ := leave_ok h
  refine ⟨ws₀, hm.imp And.right And.right, ?_⟩
  have hl : (f.dropKeywords ws₀).2.lastEnd = ws₀.lastEnd := by
    unfold dropKeywords
    split <;> rfl
  split
  · exact ⟨queue_dropKeywords f ws₀, hl⟩
  · exact ⟨queue_dropKeywords f ws₀, hl⟩

theorem keepsFront_leave (h : f.leave ws = .ok ws₁) : ws.KeepsFront ws₁ := by
  obtain ⟨ws₀, hm, hq, -⟩ := queue_leave h
  have hw : ws.KeepsFront ws₀ := by
    rcases hm with hm | rfl
    · exact keepsFront_popMark hm
    · exact .of_marks_eq rfl
  exact hw.trans (.of_marks_eq (by rw [hq]))

theorem keepsFront_entering (f : RuleFrame) (hp : ws.KeepsFront ws.pushMark) :
    ws.KeepsFront (f.entering ws).2 := by
  rcases f.queue_entering ws with hq | hq
  · exact .of_marks_eq (by rw [hq])
  · exact hp.trans (.of_marks_eq (by rw [hq]; rfl))

theorem Acts.keepsFront {a : Action} (h : f.Acts below ws result a input turn) :
    ws.KeepsFront turn.workspace := by
  cases h with
  | before input kind name next ws₁ hr => exact keepsFront_reportAtMark hr
  | done input success ws₁ hl => exact keepsFront_leave hl
  | take p kind role name next ho => exact .of_marks_eq (append_marks _ _)
  -- no other action takes a mark or gives it up
  | _ => exact .of_marks_eq (by simp)

end RuleFrame

/-- A step that is taken when there is nothing to be read keeps the outermost mark in front. -/
theorem Frame.Turns.keepsFront {frame : Frame}
    (h : Frame.Turns below ws result frame input turn) (hq : ws.Queued)
    (ho : ws.queue.hasOutput = false) : ws.KeepsFront turn.workspace := by
  have hp : ws.KeepsFront ws.pushMark := by
    intro hf
    apply hf.pushMark hq.sound
    exact hq.sound.toList_eq_nil ho
  cases h with
  | document f h => exact h.keepsFront hp
  | sequence f h => cases h <;> exact .of_marks_eq (by simp [Workspace.consume])
  | statement f h => exact h.keepsFront hp
  | block f h => cases h <;> exact .of_marks_eq (by simp)
  | rule f a ha h => exact (f.keepsFront_entering hp).trans h.keepsFront

end TermStream
