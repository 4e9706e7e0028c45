import TermStream.Proofs.Interpreter.Placement
import TermStream.Proofs.Interpreter.Preface

namespace TermStream

/-- Whether these are the first phrases of a source, up to some point in its declaration. -/
def Declaring (ps : List Phrase) : Prop :=
  ∃ lead word rest, ps = lead ++ word :: rest ∧
    (∀ p ∈ lead, p.kind = .ignorable ∨ p.kind = .softStatementEnd) ∧
    word.isWord doctypeKeyword = true ∧ ∀ p ∈ rest, p.kind = .ignorable ∨ p.kind = .significant

/-- Whether these are the first phrases of a source, up to where the string of a property is to
come. -/
def Expecting (property : DoctypeProperty) (ps : List Phrase) : Prop :=
  ∃ front word between, ps = front ++ word :: between ∧ Declaring front ∧
    word.kind = .significant ∧ word.isWord property.keyword = true ∧
    ∀ p ∈ between, p.kind = .ignorable

/-- Whether a string among the first phrases of a source names the context in its declaration. -/
def NamesContext (ps : List Phrase) (p : Phrase) : Prop :=
  ∃ front back, ps = front ++ p :: back ∧ Expecting .context front ∧ p.isString = true

section

variable {ps : List Phrase} {p : Phrase} {property : DoctypeProperty}

theorem declaring_concat (h : Declaring ps) (hk : p.kind = .ignorable ∨ p.kind = .significant) :
    Declaring (ps ++ [p]) := by
  obtain ⟨lead, word, rest, rfl, hlead, hword, hrest⟩ := h
  refine ⟨lead, word, rest ++ [p], ?_, hlead, hword, ?_⟩
  · rw [List.append_assoc]
    rfl
  · exact List.forall_mem_append.2 ⟨hrest, List.forall_mem_singleton.2 hk⟩

theorem declaring_append {more : List Phrase} (h : Declaring ps)
    (hk : ∀ p ∈ more, p.kind = .ignorable ∨ p.kind = .significant) : Declaring (ps ++ more) := by
  induction more generalizing ps with
  | nil => rwa [List.append_nil]
  | cons p more ih =>
    obtain ⟨hp, hmore⟩ := List.forall_mem_cons.1 hk
    rw [List.append_cons]
    exact ih (declaring_concat h hp) hmore

theorem expecting_concat (h : Expecting property ps) (hk : p.kind = .ignorable) :
    Expecting property (ps ++ [p]) := by
  obtain ⟨front, word, between, rfl, hfront, hkind, hword, hbetween⟩ := h
  refine ⟨front, word, between ++ [p], ?_, hfront, hkind, hword, ?_⟩
  · rw [List.append_assoc]
    rfl
  · exact List.forall_mem_append.2 ⟨hbetween, List.forall_mem_singleton.2 hk⟩

theorem Expecting.declaring (h : Expecting property ps) : Declaring ps := by
  obtain ⟨front, word, between, rfl, hfront, hkind, -, hbetween⟩ := h
  apply declaring_append hfront
  exact List.forall_mem_cons.2 ⟨.inr hkind, fun p hp => .inl (hbetween p hp)⟩

theorem NamesContext.append (h : NamesContext ps p) (more : List Phrase) :
    NamesContext (ps ++ more) p := by
  obtain ⟨front, back, rfl, hfront, hp⟩ := h
  refine ⟨front, back ++ more, ?_, hfront, hp⟩
  rw [List.append_assoc]
  rfl

end

/-- A context that was named by a string: its name is what stands in the string, and its range is
that of the string. -/
structure NamedContext.Stems (c : NamedContext) (ps : List Phrase) (p : Phrase) : Prop where
  names : NamesContext ps p
  name_eq : p.stringBody? = some c.name
  start_eq : c.start = p.start
  stop_eq : c.stop = p.stop

/-- What has been taken of a source by a document that has not begun its statements. -/
def DocumentPhase.Follows (past : List Phrase) : DocumentPhase → Prop
  | .start => past = []
  | .leading => ∀ p ∈ past, p.kind = .ignorable ∨ p.kind = .softStatementEnd
  | .properties => Declaring past
  | .expectString property => Expecting property past
  | .selectGrammar | .awaitGrammar | .loaded => True
  | .body _ _ => False

namespace DocumentFrame

variable {f f' : DocumentFrame} {past : List Phrase} {below : List Activation} {ws : Workspace}
  {input : Cell Phrase} {turn : Turn} {p : Phrase}

def Stems (past : List Phrase) (f : DocumentFrame) : Prop :=
  ∀ c, f.context = some c → ∃ p, c.Stems past p

/-- What a document knows when it has taken the phrases `past`. Its context is of no use any more
when its statements have begun. -/
inductive Knows (past : List Phrase) (f : DocumentFrame) : Prop where
  | early (hp : f.phase.Follows past) (hs : f.Stems past)
  | opened (ho : f.Opened)

theorem knows_new : new.Knows [] := .early rfl nofun

theorem Stems.append (h : f.Stems past) (more : List Phrase) : f.Stems (past ++ more) := by
  intro c hc
  obtain ⟨p, hstems⟩ := h c hc
  exact ⟨p, { hstems with names := hstems.names.append more }⟩

theorem stems_reportString {property : DoctypeProperty} (h : f.Stems past) (ws : Workspace)
    (hp : p.isString = true) (hx : property = .context → Expecting .context past) :
    (f.reportString ws p property).1.Stems (past ++ [p]) := by
  cases property with
  | publicId => exact h.append [p]
  | systemId => exact h.append [p]
  | context =>
    intro c hc
    obtain ⟨name, hname, rfl⟩ := Option.map_eq_some_iff.1 hc
    refine ⟨p, ⟨past, [], rfl, hx rfl, hp⟩, hname, rfl, ?_⟩
    have htoken : p.hasToken = true := by
      unfold Phrase.isString at hp
      unfold Phrase.hasToken
      cases hk : p.token with
      | none =>
        rw [hk] at hp
        cases hp
      | some k => rfl
    change (if p.hasToken then p.stop else ws.lastEnd) = p.stop
    rw [if_pos htoken]

theorem Turns.follows (h : f.Turns below ws input turn) (hf : f.phase.Follows past)
    (hm : turn.move.top? = some (.document f')) :
    f'.phase.Follows (past ++ (takenFrom input turn.input).toList) := by
  cases h with
  | hungry hp =>
    cases hm
    simpa using hf
  | mark input hp _ =>
    cases hm
    rw [hp] at hf
    obtain rfl : past = [] := hf
    simp [stay, goto, DocumentPhase.Follows]
  | passLeading p hp hk =>
    cases hm
    rw [hp] at hf ⊢
    exact List.forall_mem_append.2 ⟨hf, List.forall_mem_singleton.2 hk⟩
  | declare p ws₁ ws₂ hp hk hw _ _ =>
    cases hm
    rw [hp] at hf
    exact ⟨past, p, [], rfl, hf, hw, List.forall_mem_nil _⟩
  | passProperties p hp hk =>
    cases hm
    rw [hp] at hf ⊢
    exact declaring_concat hf (.inl hk)
  | word p property hp hk hw _ =>
    cases hm
    rw [hp] at hf
    exact ⟨past, p, [], rfl, hf, hk, hw, List.forall_mem_nil _⟩
  | systemId p hp hk hstring =>
    cases hm
    change f.phase.Follows (past ++ [p])
    rw [hp] at hf ⊢
    exact declaring_concat hf (.inr hk)
  | leftover p hp hk hstring =>
    cases hm
    rw [hp] at hf ⊢
    exact declaring_concat hf (.inr hk)
  | passExpect p property hp hk =>
    cases hm
    rw [hp] at hf ⊢
    exact expecting_concat hf hk
  | string p property hp hk hstring =>
    cases hm
    rw [hp] at hf
    exact declaring_concat hf.declaring (.inr hk)
  | missing p property hp hk hstring =>
    cases hm
    rw [hp] at hf
    change Declaring (past ++ [])
    rw [List.append_nil]
    exact hf.declaring
  | wait input hp hg =>
    cases hm
    rw [hp]
    trivial
  | load | close | stray => cases hm
  -- all others look for the grammar, whatever has been taken
  | _ =>
    cases hm
    trivial

/-- A context is named only by a string that is taken, where the string of a context is to come. -/
theorem Turns.stems (h : f.Turns below ws input turn) (hf : f.phase.Follows past)
    (hs : f.Stems past) (hm : turn.move.top? = some (.document f')) :
    f'.Stems (past ++ (takenFrom input turn.input).toList) := by
  cases h with
  | systemId p hp hk hstring =>
    cases hm
    exact stems_reportString hs ws hstring fun hx => by cases hx
  | string p property hp hk hstring =>
    cases hm
    rw [hp] at hf
    exact stems_reportString hs ws hstring fun hx => hx ▸ hf
  | load | close | stray => cases hm
  | _ =>
    cases hm
    exact hs.append _

theorem Turns.knows (h : f.Turns below ws input turn) (hf : f.Knows past)
    (hm : turn.move.top? = some (.document f')) :
    f'.Knows (past ++ (takenFrom input turn.input).toList) := by
  cases hf with
  | opened ho => exact .opened (h.opened ho hm)
  | early hpast hs => exact .early (h.follows hpast hm) (h.stems hpast hs hm)

end DocumentFrame

/-- Whatever frame is on top, the document knows of all phrases that have been taken. -/
theorem Frame.Turns.knows {past : List Phrase} {below : List Activation} {ws : Workspace}
    {result : CallResult} {frame : Frame} {input : Cell Phrase} {turn : Turn}
    (h : Frame.Turns below ws result frame input turn) (hs : Shaped (⟨frame, result⟩ :: below))
    (hf : ∀ f, frame = .document f → f.Knows past) :
    OnTop (DocumentFrame.Knows (past ++ (takenFrom input turn.input).toList))
      (Interpreter.stackAfter turn.move turn.below).2 := by
  refine h.onTop hs (fun f ho => .opened ho) ?_
  rintro f f' rfl hm
  cases h with
  | document f h => exact h.knows (hf f rfl) hm

end TermStream
