import TermStream.Proofs.Interpreter.Sound

namespace TermStream.Interpreter

/-- What may be done with an interpreter and its cell. A call to work may end after any step. -/
inductive Call where
  | start (source : String)
  | force (g : Grammar)
  | provide (g : Grammar)
  | put (p : Phrase)
  | parse (fuel : Nat)
  | read

def Call.Builds : Call → Prop
  | .force g | .provide g => g.Built
  | _ => True

def taking (t : Interpreter) (input : Cell Phrase) : Option (Frame × Phrase) :=
  t.stack.head?.bind fun a =>
    (takenFrom input (t.step input).2.2).map (a.frame, ·)

def takings : Nat → Interpreter → Cell Phrase → List (Frame × Phrase)
  | 0, _, _ => []
  | fuel + 1, t, input =>
    (t.taking input).toList ++
      match t.step input with
      | (.ok none, t, input) => takings fuel t input
      | _ => []

structure Session where
  interpreter : Interpreter
  cell : Cell Phrase
  /-- The phrases put into the cell. -/
  given : List Phrase
  /-- The phrases taken out of the cell, each with the frame that took it. -/
  taken : List (Frame × Phrase)
  /-- The terms that have been read. -/
  terms : List Term

namespace Session

def new : Session := ⟨.new, none, [], [], []⟩

def accept (s : Session) : Except Misuse Interpreter → Session
  | .ok t => { s with interpreter := t }
  | .error _ => s

def put (s : Session) (p : Phrase) : Session :=
  match Cell.put s.cell p with
  | .ok cell => { s with cell := cell, given := s.given ++ [p] }
  | .error _ => s

def parse (s : Session) (fuel : Nat) : Session :=
  let (_, t, cell) := s.interpreter.parse fuel s.cell
  let idle := !s.interpreter.started || s.interpreter.finished
  { s with
    interpreter := t
    cell := cell
    taken := s.taken ++ if idle then [] else s.interpreter.takings fuel s.cell }

def read (s : Session) : Session :=
  match s.interpreter.read with
  | .ok (term, t) => { s with interpreter := t, terms := s.terms ++ [term] }
  | .error _ => s

def perform (s : Session) : Call → Session
  | .start source => s.accept (s.interpreter.start source)
  | .force g => s.accept (s.interpreter.forceGrammar g)
  | .provide g => s.accept (s.interpreter.provideGrammar g)
  | .put p => s.put p
  | .parse fuel => s.parse fuel
  | .read => s.read

def performAll (s : Session) (calls : List Call) : Session := calls.foldl perform s

end Session

/-- The taken phrases but for those that sequences drop. -/
def keptOf (taken : List (Frame × Phrase)) : List Phrase :=
  (taken.filter fun (frame, p) => !frame.drops p).map (·.2)

theorem keptOf_append (xs ys : List (Frame × Phrase)) :
    keptOf (xs ++ ys) = keptOf xs ++ keptOf ys := by
  simp [keptOf]

/-- What the interpreter has taken from the cell is wrapped by the terms, read or queued, and what
it has not taken is in the cell. -/
structure Session.Sound (s : Session) : Prop where
  interpreter : s.interpreter.Sound
  unstarted : s.interpreter.started = false → s.interpreter.stack = []
  given_eq : s.given = s.taken.map (·.2) ++ s.cell.toList
  wrapped_eq : s.terms.filterMap Term.phrase ++ s.interpreter.workspace.wrapped = keptOf s.taken

theorem toList_takenFrom {input input' : Cell Phrase} (h : input' = input ∨ input' = none) :
    input.toList = (takenFrom input input').toList ++ input'.toList := by
  rcases h with rfl | rfl
  · simp
  · exact (List.append_nil _).symm

theorem keptOf_toList (frame : Frame) (p : Option Phrase) :
    keptOf (p.map (frame, ·)).toList = (p.filter fun p => !frame.drops p).toList := by
  cases p with
  | none => rfl
  | some p => cases hd : frame.drops p <;> simp [keptOf, Option.filter, hd]

theorem Sound.step_takes {t : Interpreter} (h : t.Sound) (input : Cell Phrase) :
    (t.step input).2.1.workspace.wrapped =
        t.workspace.wrapped ++ keptOf (t.taking input).toList ∧
      input.toList = (t.taking input).toList.map (·.2) ++ (t.step input).2.2.toList := by
  have hs := step_steps t input
  unfold taking
  generalize t.step input = r at hs ⊢
  obtain ⟨outcome, t', input'⟩ := r
  cases hs with
  | output ho => simp [keptOf]
  | finish ho hs => simp [keptOf]
  | lose a below e ho hs he =>
    obtain ⟨turn, ht⟩ := h.exists_turn hs input'
    rw [he] at ht
    cases ht
  | move a below turn ho hs ht =>
    have hturn := stepFrame_turns ht
    have hw := (hturn.wraps h.queued).2
    rw [hs]
    refine ⟨?_, ?_⟩
    · change turn.workspace.wrapped = _
      rw [hw]
      exact congrArg _ (keptOf_toList a.frame _).symm
    · rw [toList_takenFrom hturn.input_eq]
      cases takenFrom input turn.input <;> rfl

theorem Sound.run_takes (fuel : Nat) {t : Interpreter} (h : t.Sound) (input : Cell Phrase) :
    (t.run fuel input).2.1.workspace.wrapped =
        t.workspace.wrapped ++ keptOf (t.takings fuel input) ∧
      input.toList = (t.takings fuel input).map (·.2) ++ (t.run fuel input).2.2.toList := by
  induction fuel generalizing t input with
  | zero => exact ⟨(List.append_nil _).symm, rfl⟩
  | succ fuel ih =>
    obtain ⟨hw, hin⟩ := h.step_takes input
    obtain ⟨⟨progress, hp⟩, hs⟩ := h.steps (step_steps t input)
    unfold Interpreter.run takings
    rcases ht : t.step input with ⟨outcome, t', input'⟩
    rw [ht] at hp hs hw hin
    obtain rfl : outcome = .ok progress := hp
    cases progress with
    | some progress => exact ⟨by simpa using hw, by simpa using hin⟩
    | none =>
      obtain ⟨hw', hin'⟩ := ih hs input'
      refine ⟨?_, ?_⟩
      · change (t'.run fuel input').2.1.workspace.wrapped = _
        rw [hw', hw, keptOf_append, List.append_assoc]
      · change _ = _ ++ (t'.run fuel input').2.2.toList
        rw [hin, hin', List.map_append, List.append_assoc]

theorem started_run {fuel : Nat} {t : Interpreter} {input : Cell Phrase} :
    (t.run fuel input).2.1.started = t.started := by
  refine run_preserves (P := fun t' _ => t'.started = t.started) ?_ rfl
  intro t₁ input₁ h
  have hs := step_steps t₁ input₁
  generalize t₁.step input₁ = r at hs ⊢
  obtain ⟨outcome, t', input'⟩ := r
  cases hs <;> exact h

namespace Session

theorem new_sound : new.Sound := ⟨Interpreter.new_sound, fun _ => rfl, rfl, rfl⟩

namespace Sound

variable {s : Session}

theorem accept {result : Except Misuse Interpreter} (h : s.Sound)
    (ht : ∀ t, result = .ok t → t.Sound ∧ (t.started = false → t.stack = []) ∧
      t.workspace.wrapped = s.interpreter.workspace.wrapped) : (s.accept result).Sound := by
  cases result with
  | error m => exact h
  | ok t =>
    obtain ⟨hs, hn, hw⟩ := ht t rfl
    exact ⟨hs, hn, h.given_eq, (congrArg _ hw).trans h.wrapped_eq⟩

theorem put (h : s.Sound) (p : Phrase) : (s.put p).Sound := by
  unfold Session.put
  cases hc : s.cell with
  | some q => exact h
  | none =>
    refine ⟨h.interpreter, h.unstarted, ?_, h.wrapped_eq⟩
    have hg := h.given_eq
    rw [hc] at hg
    simp [hg, Cell.put]

theorem parse (h : s.Sound) (fuel : Nat) : (s.parse fuel).Sound := by
  unfold Session.parse Interpreter.parse
  cases hs : s.interpreter.started with
  | false =>
    exact ⟨h.interpreter, h.unstarted, by simpa using h.given_eq, by simpa using h.wrapped_eq⟩
  | true =>
    cases hf : s.interpreter.finished with
    | true =>
      exact ⟨h.interpreter, h.unstarted, by simpa using h.given_eq, by simpa using h.wrapped_eq⟩
    | false =>
      obtain ⟨hw, hin⟩ := h.interpreter.run_takes fuel s.cell
      refine ⟨(h.interpreter.run fuel s.cell).1, fun hn => ?_, ?_, ?_⟩
      · have hstart : (s.interpreter.run fuel s.cell).2.1.started = true := started_run.trans hs
        exact absurd (hstart.symm.trans hn) nofun
      · change s.given = (s.taken ++ s.interpreter.takings fuel s.cell).map (·.2) ++
          (s.interpreter.run fuel s.cell).2.2.toList
        rw [List.map_append, List.append_assoc, ← hin, h.given_eq]
      · change s.terms.filterMap Term.phrase ++
          (s.interpreter.run fuel s.cell).2.1.workspace.wrapped =
          keptOf (s.taken ++ s.interpreter.takings fuel s.cell)
        rw [hw, keptOf_append, ← h.wrapped_eq, List.append_assoc]

theorem read (h : s.Sound) : s.read.Sound := by
  unfold Session.read
  cases ho : s.interpreter.workspace.queue.hasOutput with
  | false =>
    have he : s.interpreter.read = .error (.nothingToRead .terms) := by
      simp [Interpreter.read, ho]
    rw [he]
    exact h
  | true =>
    obtain ⟨term, q, hr, hl, hs⟩ := h.interpreter.exists_read ho
    rw [hr]
    refine ⟨hs, h.unstarted, h.given_eq, ?_⟩
    rw [← h.wrapped_eq]
    simp only [Workspace.wrapped, hl, List.filterMap_append, List.append_assoc]
    cases hp : term.phrase <;> simp [hp]

theorem perform {call : Call} (h : s.Sound) (hb : call.Builds) : (s.perform call).Sound := by
  cases call with
  | start source =>
    apply h.accept
    intro t ht
    have hstarted : s.interpreter.started = false ∧ t.started = true ∧
        t.workspace.wrapped = s.interpreter.workspace.wrapped := by
      unfold Interpreter.start at ht
      split at ht
      · cases ht
      · next hf =>
        cases ht
        exact ⟨by simpa using hf, rfl, rfl⟩
    exact ⟨h.interpreter.start (h.unstarted hstarted.1) ht,
      fun hn => absurd (hstarted.2.1.symm.trans hn) nofun, hstarted.2.2⟩
  | force g =>
    refine h.accept fun t ht => ⟨h.interpreter.forceGrammar hb ht, ?_⟩
    unfold Interpreter.forceGrammar at ht
    split at ht
    · cases ht
    · cases ht
      exact ⟨h.unstarted, rfl⟩
  | provide g =>
    refine h.accept fun t ht => ⟨h.interpreter.provideGrammar hb ht, ?_⟩
    unfold Interpreter.provideGrammar at ht
    split at ht
    · cases ht
    · cases ht
      exact ⟨h.unstarted, rfl⟩
  | put p => exact h.put p
  | parse fuel => exact h.parse fuel
  | read => exact h.read

theorem performAll {calls : List Call} (h : s.Sound) (hb : ∀ call ∈ calls, call.Builds) :
    (s.performAll calls).Sound := by
  induction calls generalizing s with
  | nil => exact h
  | cons call calls ih =>
    exact ih (h.perform (hb call List.mem_cons_self)) fun c hc =>
      hb c (List.mem_cons_of_mem _ hc)

end Sound

end Session

end TermStream.Interpreter
