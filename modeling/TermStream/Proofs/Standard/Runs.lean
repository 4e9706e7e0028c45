import TermStream.Proofs.Pipeline.Completion
import TermStream.Proofs.Pipeline.Reported
import TermStream.Proofs.Standard.Declaration

namespace TermStream

def Action.reportsError : Action → Bool
  | .reportError .. => true
  | _ => false

def Action.isBare (a : Action) : Bool := a.name?.isNone && !a.reportsError

namespace Grammar.IsStandard

variable {g : Grammar} {a : Action}

theorem isBare (h : g.IsStandard) (ha : a ∈ g.actions) : a.isBare = true := by
  obtain ⟨script, errors, rfl⟩ := h
  have hall : (standard script).actions.toList.all Action.isBare = true := rfl
  exact List.all_eq_true.1 hall a (Array.mem_toList_iff.2 ha)

theorem name?_eq_none (h : g.IsStandard) (ha : a ∈ g.actions) : a.name? = none := by
  have hbare := h.isBare ha
  rw [Action.isBare, Bool.and_eq_true] at hbare
  exact Option.isNone_iff_eq_none.1 hbare.1

theorem reportError_notMem (h : g.IsStandard) (code : ErrorCode) (args : List String)
    (next : ActionId) : .reportError code args next ∉ g.actions := by
  intro ha
  have hbare := h.isBare ha
  rw [Action.isBare, Bool.and_eq_true] at hbare
  cases hbare.2

end Grammar.IsStandard

/-- The names that the frame of a document gives. -/
def StructuralName.OfDeclaration (name : StructuralName) : Prop :=
  name = doctypeName ∨ ∃ property : DoctypeProperty, name = .property property.name false

/-- Whether a term has no name, or one that the frame of a document gives. -/
def Term.PlainlyNamed (t : Term) : Prop := ∀ name ∈ t.name, name.OfDeclaration

theorem Frame.Names.ofDeclaration {frame : Frame} {name : Option StructuralName}
    (h : frame.Names name) (hg : ∀ f, frame = .rule f → f.grammar.IsStandard) :
    ∀ n ∈ name, n.OfDeclaration := by
  cases h with
  | unnamed => exact nofun
  | declaration f =>
    rintro n ⟨⟩
    exact .inl rfl
  | property f property =>
    rintro n ⟨⟩
    exact .inr ⟨property, rfl⟩
  | action ha =>
    rw [(hg _ rfl).name?_eq_none ha]
    exact nofun

namespace Course

variable {answer : GrammarReference → Grammar}

structure Named (c : Course) : Prop where
  uses : c.Uses Grammar.IsStandard
  named : c.AllTerms Term.PlainlyNamed

theorem kept_named (ha : ∀ r, (answer r).IsStandard) : Kept answer Named where
  stepped := by
    intro c hs h
    refine ⟨h.uses.stepped hs, h.named.stepped hs ?_⟩
    intro a below hstack t ht
    exact ht.name.ofDeclaration fun f hf => h.uses.rule hs hstack hf
  serve := fun hs h hd => ⟨h.uses.serve hs ha hd, h.named.serve hs hd⟩

end Course

namespace Pipeline

variable {source text : String} {settings : Settings} {grammar : Option Grammar}

theorem standard_isStandard (r : GrammarReference) (g : Grammar)
    (h : Resolver.standard r = some g) : g.IsStandard :=
  standard_eq h ▸ Grammar.isStandard_standard false

theorem exists_standard_run (source text : String) (settings : Settings)
    (hg : ∀ g, grammar = some g → g.IsStandard) :
    ∃ n, ∀ fuel ≥ n, ∃ transcript,
      run fuel source text settings grammar .standard = .ok transcript := by
  have ha : ∀ r, (answer source .standard r).IsStandard := answer_isStandard standard_isStandard
  have hbuilt : ∀ r, (answer source .standard r).Built := fun r => (ha r).built
  obtain ⟨t, p, ts, ps, ht, hp, -, -, hsound, hfollows, -, -⟩ :=
    exists_open source text settings .standard fun g h => (hg g h).built
  obtain ⟨d, g, out, hleads, hshows⟩ := (Course.Declares.start hg ht hsound).leads_end ha
  obtain ⟨e, n, he, hrests, -⟩ := hleads.exists_end hbuilt hshows
  exact (run_ends standard_built hp hfollows he hrests).1

/-- What a run with the standard grammar has read at its end is nested, and has no names but those
of a declaration. -/
theorem standard_run_sound {fuel : Nat} {transcript : Transcript}
    (hg : ∀ g, grammar = some g → g.IsStandard)
    (hr : run fuel source text settings grammar .standard = .ok transcript) :
    Complete transcript.terms.toList ∧ ∀ t ∈ transcript.terms.toList, t.PlainlyNamed := by
  have ha : ∀ r, (answer source .standard r).IsStandard := answer_isStandard standard_isStandard
  obtain ⟨t, ts, ps, ht, -, -, hsound, n, d, hn, hd, hrests, hterms⟩ :=
    run_reaches (fun g h => (hg g h).built) standard_built hr
  have hnested : d.Nested :=
    (Course.kept_nested fun r => (ha r).plain).reaches hsound (fun r => (ha r).built)
      (.start (fun g h => (hg g h).plain) ht hsound) hn
  have hnamed : d.Named :=
    (Course.kept_named ha).reaches hsound (fun r => (ha r).built) ⟨.start hg ht, .start ht⟩ hn
  have hcomplete := hnested.complete (Interpreter.step_eof hrests).1
  rw [hrests.queue_eq_nil hd, List.append_nil, hterms] at hcomplete
  refine ⟨hcomplete, ?_⟩
  intro t ht
  exact hnamed.named t (List.mem_append_left _ (hterms ▸ ht))

end Pipeline

end TermStream
