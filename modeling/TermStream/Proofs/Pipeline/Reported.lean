import TermStream.Proofs.Interpreter.Reported
import TermStream.Proofs.Pipeline.Runs

namespace TermStream.Course

variable {answer : GrammarReference → Grammar} {c d : Course} {progress : Progress}
  {P : Term → Prop}

def AllTerms (P : Term → Prop) (c : Course) : Prop :=
  ∀ t ∈ c.terms ++ c.interpreter.workspace.queue.toList, P t

theorem AllTerms.stepped (h : c.AllTerms P) (hs : c.Sound)
    (hp : ∀ a below, c.interpreter.stack = a :: below →
      ∀ t, a.frame.Reports c.interpreter.workspace c.stepped.interpreter.workspace c.cell t → P t) :
    c.stepped.AllTerms P := by
  have hadv := hs.advances
  generalize c.stepped = d at hadv hp ⊢
  cases hadv with
  | output ho => exact h
  | finish ho hs => exact h
  | move a below turn ho hstack ht =>
    intro t hmem
    rcases List.mem_append.1 hmem with hread | hqueued
    · exact h t (List.mem_append_left _ hread)
    · rcases (ht.adds hs.interpreter.queued).2.2 t hqueued with hqueued | hreports
      · exact h t (List.mem_append_right _ hqueued)
      · exact hp a below hstack t hreports

theorem AllTerms.serve (h : c.AllTerms P) (hs : c.Sound)
    (hd : c.serve answer progress = some d) : d.AllTerms P := by
  cases serve_serves hd with
  | read term t hr =>
    obtain ⟨q, rfl, hl, -⟩ := hs.interpreter.read_eq hr
    have hall : c.terms ++ c.interpreter.workspace.queue.toList =
        c.terms ++ [term] ++ q.toList := by rw [hl, List.append_assoc]; rfl
    intro t hmem
    exact h t (hall ▸ hmem)
  | give p ps hp hc => exact h
  | provide r t hp =>
    obtain ⟨-, rfl⟩ := Interpreter.provideGrammar_ok hp
    exact h

theorem AllTerms.start {source : String} {grammar : Option Grammar} {t : Interpreter}
    {ps : List Phrase} (ht : Pipeline.openInterpreter source grammar = .ok t) :
    Course.AllTerms P ⟨t, none, ps, []⟩ := by
  cases grammar <;> cases ht <;> exact List.forall_mem_nil _

/-- The grammar of the document has a property, once there is one. -/
def Uses (G : Grammar → Prop) (c : Course) : Prop :=
  ∀ g, c.interpreter.workspace.grammar = some g → G g

variable {G : Grammar → Prop}

theorem Uses.stepped (h : c.Uses G) (hs : c.Sound) : c.stepped.Uses G := by
  have hadv := hs.advances
  generalize c.stepped = d at hadv ⊢
  cases hadv with
  | output ho => exact h
  | finish ho hs => exact h
  | move a below turn ho hstack ht =>
    intro g hg
    exact h g (ht.grammar_eq ▸ hg)

theorem Uses.serve (h : c.Uses G) (hs : c.Sound) (ha : ∀ r, G (answer r))
    (hd : c.serve answer progress = some d) : d.Uses G := by
  cases serve_serves hd with
  | read term t hr =>
    obtain ⟨q, rfl, -⟩ := hs.interpreter.read_eq hr
    exact h
  | give p ps hp hc => exact h
  | provide r t hp =>
    obtain ⟨-, rfl⟩ := Interpreter.provideGrammar_ok hp
    intro g hg
    exact Option.some.inj hg ▸ ha r

theorem Uses.start {source : String} {grammar : Option Grammar} {t : Interpreter}
    {ps : List Phrase} (hg : ∀ g, grammar = some g → G g)
    (ht : Pipeline.openInterpreter source grammar = .ok t) :
    Course.Uses G ⟨t, none, ps, []⟩ := by
  cases grammar with
  | none =>
    cases ht
    exact nofun
  | some g =>
    cases ht
    exact hg

theorem Uses.rule (h : c.Uses G) (hs : c.Sound) {a : Activation} {below : List Activation}
    {f : RuleFrame} (hstack : c.interpreter.stack = a :: below) (hf : a.frame = .rule f) :
    G f.grammar := by
  have hfits := hs.interpreter.fits a (hstack ▸ List.mem_cons_self)
  rw [hf] at hfits
  exact h _ hfits.grammar_eq

end TermStream.Course
