import TermStream.Proofs.Interpreter.Opening
import TermStream.Proofs.Interpreter.Reported

namespace TermStream

/-- Going from one workspace to the other queues no announcement. -/
def Workspace.Silently (ws ws' : Workspace) : Prop :=
  ws.Queued → ws'.Queued ∧ ∀ t ∈ ws'.queue.toList, t ∈ ws.queue.toList ∨ t.kind ≠ .grammarIsLoaded

/-- Once the statements of a document have begun nothing announces its grammar. -/
theorem Frame.Turns.silently {below : List Activation} {ws : Workspace} {result : CallResult}
    {frame : Frame} {input : Cell Phrase} {turn : Turn}
    (h : Frame.Turns below ws result frame input turn)
    (hd : ∀ f, frame = .document f → f.Opened)
    (hg : ∀ f, frame = .rule f → f.grammar.Silent) : ws.Silently turn.workspace := by
  have hquiet : ¬ frame.Announces := by
    cases frame with
    | document f => exact not_not_intro (hd f rfl)
    | rule f => exact not_not_intro (hg f rfl)
    | sequence f => exact id
    | statement f => exact id
    | block f => exact id
  intro hq
  obtain ⟨hq', -, hterms⟩ := h.adds hq
  refine ⟨hq', fun t ht => (hterms t ht).imp_right ?_⟩
  intro hreports hk
  exact hquiet (hreports.announces hk)

end TermStream
