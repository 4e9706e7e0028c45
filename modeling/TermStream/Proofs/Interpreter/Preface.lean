import TermStream.Proofs.Interpreter.Marks

namespace TermStream

open MarkedQueue Workspace

def Term.Is (t u : Term) : Prop := { t with grammar := u.grammar } = u

theorem Term.Is.kind_eq {t u : Term} (h : t.Is u) : t.kind = u.kind := by
  unfold Is at h
  rw [← h]

theorem Term.Is.phrase_eq {t u : Term} (h : t.Is u) : t.phrase = u.phrase := by
  unfold Is at h
  rw [← h]

def Term.IsTrivia (t : Term) : Prop :=
  ∃ p : Phrase, (p.kind = .ignorable ∨ p.kind = .softStatementEnd) ∧ t.Is (.ignorable p)

def Term.IsError (t : Term) (code : ErrorCode) (args : List String) : Prop :=
  ∃ location, t.Is ((Term.event .syntaxError .unknown t.start).withErrors
    (.single ⟨code, args, location⟩))

/-- A string that a declaration has accepted, and for which property. -/
abbrev AcceptedString := DoctypeProperty × Phrase

/-- The terms of a declaration that has begun, with the strings it has accepted, when a string is
expected for a property, or for none. A string that is not expected is the system id. -/
inductive Declares : Option DoctypeProperty → List Term → List AcceptedString → Prop where
  | word (start object word : Term) (trivia : List Term) (p : Phrase)
      (hs : start.Is (.event .statementStart .unknown start.start))
      (ht : ∀ t ∈ trivia, t.IsTrivia)
      (ho : object.Is ((Term.event .objectStart .unknown object.start).named (some doctypeName)))
      (hp : p.isWord doctypeKeyword = true) (hw : word.Is (.wrap .structural .keyword p)) :
      Declares none (start :: trivia ++ [object, word]) []
  | pass {expected : Option DoctypeProperty} {terms : List Term} {strings : List AcceptedString}
      (h : Declares expected terms strings) (t : Term) (p : Phrase) (hp : p.kind = .ignorable)
      (ht : t.Is (.ignorable p)) : Declares expected (terms ++ [t]) strings
  | expect {terms : List Term} {strings : List AcceptedString} (h : Declares none terms strings)
      (property : DoctypeProperty) (hs : property ≠ .systemId) (t : Term) (p : Phrase)
      (hp : p.isWord property.keyword = true) (ht : t.Is (.wrap .structural .keyword p)) :
      Declares (some property) (terms ++ [t]) strings
  | accept {expected : Option DoctypeProperty} {terms : List Term} {strings : List AcceptedString}
      (h : Declares expected terms strings) (start value stop : Term) (p : Phrase)
      (property : DoctypeProperty) (he : property = expected.getD .systemId)
      (hs : start.Is ((Term.event .propertyStart .unknown start.start).named
        (some (.property property.name false))))
      (hp : p.isString = true) (hv : value.Is (.wrap .value .primary p))
      (hstop : stop.Is (.event .propertyEnd .unknown stop.start)) :
      Declares none (terms ++ [start, value, stop]) (strings ++ [(property, p)])
  | miss {property : DoctypeProperty} {terms : List Term} {strings : List AcceptedString}
      (h : Declares (some property) terms strings) (t : Term)
      (ht : t.IsError Problem.missingDoctypeString [property.keyword]) :
      Declares none (terms ++ [t]) strings
  | leave {terms : List Term} {strings : List AcceptedString} (h : Declares none terms strings)
      (error t : Term) (p : Phrase) (he : error.IsError Problem.unexpectedToken [p.text])
      (hp : p.isString = false) (ht : t.Is (.wrap .ignorable .skipped p)) :
      Declares none (terms ++ [error, t]) strings

def Term.EndsDeclaration (t : Term) : Prop :=
  t.Is (.event .statementEnd .unknown t.start) ∨
    ∃ p : Phrase, (p.kind = .statementEnd ∨ p.kind = .softStatementEnd) ∧
      t.Is (.wrap .statementEnd .separator p)

/-- All terms of a document before its grammar is there: what stands in front of its first
statement, or a whole declaration, with the strings that it accepts. -/
inductive Preface : List Term → List AcceptedString → Prop where
  | trivia (terms : List Term) (ht : ∀ t ∈ terms, t.IsTrivia) : Preface terms []
  | declaration {terms : List Term} {strings : List AcceptedString}
      (h : Declares none terms strings) (object stop : Term)
      (ho : object.Is (.event .objectEnd .unknown object.start)) (hs : stop.EndsDeclaration) :
      Preface (terms ++ [object, stop]) strings

/-- The strings that a document has accepted when these are its terms and its statements have not
begun. -/
def Accepts (terms : List Term) (strings : List AcceptedString) : Prop :=
  (∃ expected, Declares expected terms strings) ∨ Preface terms strings

section

variable {terms : List Term} {strings : List AcceptedString} {s : AcceptedString}

theorem Declares.exists_term {expected : Option DoctypeProperty}
    (h : Declares expected terms strings) (hs : s ∈ strings) :
    s.2.isString = true ∧ ∃ t ∈ terms, t.phrase = some s.2 := by
  induction h with
  | word => cases hs
  | pass h t p hp ht ih | expect h _ _ t p hp ht ih | miss h t ht ih | leave h _ t p _ hp ht ih =>
    obtain ⟨hstring, u, hu, hphrase⟩ := ih hs
    exact ⟨hstring, u, List.mem_append_left _ hu, hphrase⟩
  | accept h start value stop p property he hstart hp hv hstop ih =>
    rcases List.mem_append.1 hs with hs | hs
    · obtain ⟨hstring, u, hu, hphrase⟩ := ih hs
      exact ⟨hstring, u, List.mem_append_left _ hu, hphrase⟩
    · obtain rfl := List.mem_singleton.1 hs
      exact ⟨hp, value, by simp, hv.phrase_eq⟩

theorem Preface.exists_term (h : Preface terms strings) (hs : s ∈ strings) :
    s.2.isString = true ∧ ∃ t ∈ terms, t.phrase = some s.2 := by
  cases h with
  | trivia => cases hs
  | declaration h =>
    obtain ⟨hstring, u, hu, hphrase⟩ := h.exists_term hs
    exact ⟨hstring, u, List.mem_append_left _ hu, hphrase⟩

theorem Accepts.exists_term (h : Accepts terms strings) (hs : s ∈ strings) :
    s.2.isString = true ∧ ∃ t ∈ terms, t.phrase = some s.2 := by
  rcases h with ⟨expected, h⟩ | h
  · exact h.exists_term hs
  · exact h.exists_term hs

end

def Unannounced (terms : List Term) : Prop := ∀ t ∈ terms, t.kind ≠ .grammarIsLoaded

section

variable {front back terms : List Term} {t u : Term} {strings : List AcceptedString}
  {expected : Option DoctypeProperty}

theorem unannounced_nil : Unannounced [] := List.forall_mem_nil _

theorem unannounced_append : Unannounced (front ++ back) ↔ Unannounced front ∧ Unannounced back :=
  List.forall_mem_append

theorem Unannounced.cons (h : Unannounced terms) (ht : t.Is u) (hk : u.kind ≠ .grammarIsLoaded) :
    Unannounced (t :: terms) :=
  List.forall_mem_cons.2 ⟨ht.kind_eq ▸ hk, h⟩

theorem unannounced_of_is (ht : t.Is u) (hk : u.kind ≠ .grammarIsLoaded) : Unannounced [t] :=
  unannounced_nil.cons ht hk

theorem Unannounced.error {code : ErrorCode} {args : List String} (h : Unannounced terms)
    (ht : t.IsError code args) : Unannounced (t :: terms) := by
  obtain ⟨location, ht⟩ := ht
  exact h.cons ht nofun

theorem unannounced_of_trivia (h : ∀ t ∈ terms, t.IsTrivia) : Unannounced terms := by
  intro t ht
  obtain ⟨p, -, hp⟩ := h t ht
  rw [hp.kind_eq]
  exact nofun

theorem Declares.unannounced (h : Declares expected terms strings) : Unannounced terms := by
  induction h with
  | word start object word trivia p hs ht ho hp hw =>
    exact unannounced_append.2 ⟨(unannounced_of_trivia ht).cons hs nofun,
      (unannounced_of_is hw nofun).cons ho nofun⟩
  | pass h t p hp ht ih => exact unannounced_append.2 ⟨ih, unannounced_of_is ht nofun⟩
  | expect h property hs t p hp ht ih =>
    exact unannounced_append.2 ⟨ih, unannounced_of_is ht nofun⟩
  | accept h start value stop p property he hs hp hv hstop ih =>
    exact unannounced_append.2 ⟨ih,
      ((unannounced_of_is hstop nofun).cons hv nofun).cons hs nofun⟩
  | miss h t ht ih => exact unannounced_append.2 ⟨ih, unannounced_nil.error ht⟩
  | leave h error t p he hp ht ih =>
    exact unannounced_append.2 ⟨ih, (unannounced_of_is ht nofun).error he⟩

theorem Preface.unannounced (h : Preface terms strings) : Unannounced terms := by
  cases h with
  | trivia _ ht => exact unannounced_of_trivia ht
  | declaration h object stop ho hs =>
    refine unannounced_append.2 ⟨h.unannounced, Unannounced.cons ?_ ho nofun⟩
    rcases hs with hs | ⟨p, -, hs⟩
    · exact unannounced_of_is hs nofun
    · exact unannounced_of_is hs nofun

end

def Phrase.stringBody? (p : Phrase) : Option String := p.token.bind Token.stringBody?

def lastString? (strings : List AcceptedString) (property : DoctypeProperty) : Option String :=
  (strings.reverse.find? fun s => s.1 = property).bind fun s => s.2.stringBody?

def referenceOf (strings : List AcceptedString) : GrammarReference :=
  ⟨lastString? strings .publicId, lastString? strings .systemId⟩

namespace DocumentFrame

def stored? (f : DocumentFrame) : DoctypeProperty → Option String
  | .publicId => f.publicId
  | .systemId => f.systemId
  | .context => f.context.map NamedContext.name

/-- Whether a document has stored what the strings stand for that its declaration has accepted. -/
def Remembers (f : DocumentFrame) (strings : List AcceptedString) : Prop :=
  ∀ property, f.stored? property = lastString? strings property

theorem remembers_remember {f : DocumentFrame} {strings : List AcceptedString}
    (h : f.Remembers strings) (property : DoctypeProperty) (p : Phrase) (start stop : Position) :
    (f.remember property p.stringBody? start stop).Remembers (strings ++ [(property, p)]) := by
  intro other
  have hlast : lastString? (strings ++ [(property, p)]) other =
      if property = other then p.stringBody? else lastString? strings other := by
    rw [lastString?, List.reverse_concat, List.find?_cons]
    by_cases he : property = other <;> simp [he, lastString?]
  rw [hlast, ← h other]
  cases property <;> cases other <;> simp [remember, stored?, Function.comp_def]

end DocumentFrame

end TermStream
