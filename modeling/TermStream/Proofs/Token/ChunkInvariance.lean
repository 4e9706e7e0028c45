import TermStream.Proofs.Token.Ahead

namespace TermStream.Lexer

inductive Call where
  | push (text : List Char)
  | parse (final : Bool)
  | read

structure Reading where
  lexer : Lexer
  backlog : Backlog
  tokens : List Token

namespace Reading

def perform (r : Reading) : Call → Reading
  | .push text => { r with backlog := r.backlog.push text }
  | .parse final =>
    match r.lexer.parse r.backlog final with
    | .ok (_, l, b) => { r with lexer := l, backlog := b }
    | .error _ => r
  | .read =>
    match r.lexer.read with
    | .ok (t, l) => { r with lexer := l, tokens := r.tokens ++ [t] }
    | .error _ => r

def performAll (r : Reading) (calls : List Call) : Reading := calls.foldl perform r

end Reading

/-- The calls push parts of the text one after the other, and none before the last part says that
the text is complete. -/
def Schedule : List Char → List Call → Prop
  | _, [] => True
  | text, .push chunk :: calls => ∃ rest, text = chunk ++ rest ∧ Schedule rest calls
  | text, .parse final :: calls => (final = true → text = []) ∧ Schedule text calls
  | text, .read :: calls => Schedule text calls

def pushed : List Call → List Char
  | [] => []
  | .push chunk :: calls => chunk ++ pushed calls
  | _ :: calls => pushed calls

/-- The tokens read and the tokens to come are those of the whole text; `more` is still to be
pushed. -/
structure Reading.Keeps (r : Reading) (source : String) (more : List Char)
    (whole : List Token) : Prop where
  started : r.lexer.source = some source
  whole_eq : r.tokens ++ r.lexer.ahead (r.backlog.rest ++ more) = whole

namespace Reading.Keeps

variable {r : Reading} {source : String} {more : List Char} {whole : List Token}

theorem push {chunk rest : List Char} (h : r.Keeps source (chunk ++ rest) whole) :
    (r.perform (.push chunk)).Keeps source rest whole := by
  refine ⟨h.started, ?_⟩
  rw [← h.whole_eq]
  simp [perform]

theorem parse {final : Bool} (h : r.Keeps source more whole) (hm : final = true → more = []) :
    (r.perform (.parse final)).Keeps source more whole := by
  obtain ⟨progress, l, b, hok, hp⟩ := parse_parsed r.backlog final h.started
  have hr : r.perform (.parse final) = { r with lexer := l, backlog := b } := by
    simp only [perform, hok]
  rw [hr]
  exact ⟨hp.source_eq.trans h.started,
    (congrArg (r.tokens ++ ·) (hp.ahead_eq h.started hm)).trans h.whole_eq⟩

theorem read (h : r.Keeps source more whole) : (r.perform .read).Keeps source more whole := by
  unfold perform
  cases hr : r.lexer.read with
  | error e => exact h
  | ok result =>
    obtain ⟨t, l⟩ := result
    have hs : l.source = r.lexer.source := by
      unfold Lexer.read at hr
      split at hr
      · cases hr; rfl
      · cases hr
    refine ⟨hs.trans h.started, ?_⟩
    rw [← h.whole_eq, ahead_read _ hr]
    simp

theorem performAll {calls : List Call} (h : r.Keeps source more whole)
    (hc : Schedule more calls) :
    ∃ rest, more = pushed calls ++ rest ∧ (r.performAll calls).Keeps source rest whole := by
  induction calls generalizing r more with
  | nil => exact ⟨more, rfl, h⟩
  | cons call calls ih =>
    cases call with
    | push chunk =>
      obtain ⟨rest, rfl, hs⟩ := hc
      obtain ⟨rest', rfl, hk⟩ := ih h.push hs
      exact ⟨rest', (List.append_assoc _ _ _).symm, hk⟩
    | parse final => exact ih (h.parse hc.1) hc.2
    | read => exact ih h.read hc

theorem tokens_prefix (h : r.Keeps source more whole) : r.tokens <+: whole :=
  ⟨_, h.whole_eq⟩

theorem tokens_eq {final : Bool} {l : Lexer} {b : Backlog} (h : r.Keeps source more whole)
    (he : r.lexer.parse r.backlog final = .ok (.eof, l, b)) : r.tokens = whole := by
  obtain ⟨progress, l', b', hok, hp⟩ := parse_parsed r.backlog final h.started
  rw [hok] at he
  cases he
  cases hp with
  | ended hp he => rw [← h.whole_eq, ahead_ended _ hp he, List.append_nil]

theorem exists_readAll (h : r.Keeps source [] whole) :
    ∃ out l b, r.lexer.readAll r.backlog true = .ok (out, .eof, l, b) ∧
      r.tokens ++ out.toList = whole := by
  obtain ⟨l, b, hr⟩ := readAll_ahead r.backlog h.started
  exact ⟨_, l, b, hr, by simpa using h.whole_eq⟩

theorem unchanged {final : Bool} {l : Lexer} {b : Backlog} (h : r.Keeps source more whole)
    (he : r.lexer.parse r.backlog final = .ok (.inputNeeded, l, b)) :
    l = r.lexer ∧ b = r.backlog ∧ r.perform (.parse final) = r := by
  obtain ⟨progress, l', b', hok, hp⟩ := parse_parsed r.backlog final h.started
  have hr : r.perform (.parse final) = { r with lexer := l, backlog := b } := by
    simp only [perform, he]
  rw [hok] at he
  cases he
  cases hp with
  | starved => exact ⟨rfl, rfl, hr⟩

end Reading.Keeps

/-- However a text is pushed, the tokens read are those of the text as a whole: at any moment they
are the first of them, when the end is reported they are all of them, and as soon as the text is
pushed all of them can be read. A call that asks for more text changes nothing. -/
theorem tokens_independent_of_chunks (settings : Settings) (source : String) (position : Position)
    (text : String) (calls : List Call) (h : Schedule text.toList calls) :
    ∃ l whole l' b', (Lexer.new settings).start source position = .ok l ∧
      l.readAll (.ofText text) true = .ok (whole, .eof, l', b') ∧
      let r := Reading.performAll ⟨l, .empty, []⟩ calls
      r.tokens <+: whole.toList ∧
      (∀ final l₁ b₁, r.lexer.parse r.backlog final = .ok (.eof, l₁, b₁) →
        r.tokens = whole.toList) ∧
      (pushed calls = text.toList →
        ∃ out l₁ b₁, r.lexer.readAll r.backlog true = .ok (out, .eof, l₁, b₁) ∧
          r.tokens ++ out.toList = whole.toList) ∧
      ∀ final l₁ b₁, r.lexer.parse r.backlog final = .ok (.inputNeeded, l₁, b₁) →
        l₁ = r.lexer ∧ b₁ = r.backlog ∧
        ∀ later, (r.perform (.parse final)).performAll later = r.performAll later := by
  let l : Lexer := { Lexer.new settings with source := some source, position := position }
  have hs : l.source = some source := rfl
  obtain ⟨l', b', hall⟩ := readAll_ahead (.ofText text) hs
  have hstart : Reading.Keeps ⟨l, .empty, []⟩ source text.toList (l.ahead text.toList) :=
    ⟨hs, by simp [Backlog.empty]⟩
  obtain ⟨rest, htext, hk⟩ := hstart.performAll h
  refine ⟨l, _, l', b', rfl, hall, hk.tokens_prefix, ?_, ?_, ?_⟩
  · intro final l₁ b₁ he
    exact hk.tokens_eq he
  · intro hp
    have hrest : rest = [] := by simpa [hp] using htext
    subst hrest
    exact hk.exists_readAll
  · intro final l₁ b₁ he
    obtain ⟨hl, hb, hr⟩ := hk.unchanged he
    exact ⟨hl, hb, fun later => by rw [hr]⟩

/-- A line break that is pushed in two halves. -/
theorem tokens_independent_of_chunks_crlf :
    let calls : List Call := [.push ['a', '\r'], .parse false, .read, .parse false, .push ['\n'],
      .parse true, .read]
    Schedule "a\r\n".toList calls ∧
    ∃ l whole l' b', (Lexer.new .standard).start "in" .start = .ok l ∧
      l.readAll (.ofText "a\r\n") true = .ok (whole, .eof, l', b') ∧
      (Reading.performAll ⟨l, .empty, []⟩ calls).tokens <+: whole.toList := by
  have hs : Schedule "a\r\n".toList [.push ['a', '\r'], .parse false, .read, .parse false,
      .push ['\n'], .parse true, .read] :=
    ⟨['\n'], rfl, nofun, nofun, [], rfl, fun _ => rfl, trivial⟩
  obtain ⟨l, whole, l', b', hl, hw, hp, _⟩ :=
    tokens_independent_of_chunks .standard "in" .start "a\r\n" _ hs
  exact ⟨hs, l, whole, l', b', hl, hw, hp⟩

end TermStream.Lexer
