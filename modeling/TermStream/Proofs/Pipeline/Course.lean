import TermStream.Proofs.Interpreter.Ending

namespace TermStream

structure Course where
  interpreter : Interpreter
  cell : Cell Phrase
  /-- The phrases that have not been put into the cell. -/
  phrases : List Phrase
  /-- The terms that have been read. -/
  terms : List Term

namespace Course

def stepped (c : Course) : Course :=
  let (_, t, cell) := c.interpreter.step c.cell
  { c with interpreter := t, cell := cell }

def Awaits (progress : Progress) (c : Course) : Prop :=
  (c.interpreter.step c.cell).1 = .ok (some progress)

/-- Reads a term, or gives what is needed. There is nothing to be done when the input has ended. -/
def serve (answer : GrammarReference → Grammar) (c : Course) : Progress → Option Course
  | .outputAvailable =>
    match c.interpreter.read with
    | .ok (term, t) => some { c with interpreter := t, terms := c.terms ++ [term] }
    | .error _ => none
  | .inputNeeded =>
    match c.phrases with
    | [] => none
    | p :: ps =>
      match Cell.put c.cell p with
      | .ok cell => some { c with cell := cell, phrases := ps }
      | .error _ => none
  | .resourceNeeded =>
    match c.interpreter.request? with
    | none => none
    | some r =>
      match c.interpreter.provideGrammar (answer r) with
      | .ok t => some { c with interpreter := t }
      | .error _ => none
  | .eof => none

/-- One move: a step, together with what is done about it when it ends the work. -/
def next (answer : GrammarReference → Grammar) (c : Course) : Option Course :=
  match (c.interpreter.step c.cell).1 with
  | .ok none => some c.stepped
  | .ok (some progress) => c.stepped.serve answer progress
  | .error _ => none

def after (answer : GrammarReference → Grammar) : Nat → Course → Option Course
  | 0, c => some c
  | n + 1, c => (after answer n c).bind (next answer)

def parse (fuel : Nat) (c : Course) : Except Halt Progress × Course :=
  let (result, t, cell) := c.interpreter.parse fuel c.cell
  (result, { c with interpreter := t, cell := cell })

/-- Turns all phrases into terms in at most `rounds` calls of at most `fuel` steps, and ends when
nothing can be done about what is needed. -/
def translate (answer : GrammarReference → Grammar) (fuel : Nat) :
    Nat → Course → Except Halt Progress × Course
  | 0, c => (.error .unfinished, c)
  | rounds + 1, c =>
    match c.parse fuel with
    | (.error h, c) => (.error h, c)
    | (.ok progress, c) =>
      match c.serve answer progress with
      | some c => translate answer fuel rounds c
      | none => (.ok progress, c)

variable {answer : GrammarReference → Grammar} {start c d e : Course} {progress : Progress}
  {n m : Nat}

inductive Serves (answer : GrammarReference → Grammar) (c : Course) : Progress → Course → Prop where
  | read (term : Term) (t : Interpreter) (hr : c.interpreter.read = .ok (term, t)) :
      Serves answer c .outputAvailable { c with interpreter := t, terms := c.terms ++ [term] }
  | give (p : Phrase) (ps : List Phrase) (hp : c.phrases = p :: ps) (hc : c.cell = none) :
      Serves answer c .inputNeeded { c with cell := some p, phrases := ps }
  | provide (r : GrammarReference) (t : Interpreter)
      (hp : c.interpreter.provideGrammar (answer r) = .ok t) :
      Serves answer c .resourceNeeded { c with interpreter := t }

theorem serve_serves (h : c.serve answer progress = some d) : c.Serves answer progress d := by
  cases progress with
  | outputAvailable =>
    simp only [serve] at h
    split at h
    · next term t hr => cases h; exact .read term t hr
    · cases h
  | inputNeeded =>
    simp only [serve] at h
    split at h
    · cases h
    · next p ps hp =>
      cases hc : c.cell with
      | some q => simp [hc, Cell.put] at h
      | none =>
        simp only [hc, Cell.put, Option.some.injEq] at h
        subst h
        exact .give p ps hp hc
  | resourceNeeded =>
    simp only [serve] at h
    split at h
    · cases h
    · next r hr =>
      split at h
      · next t ht => cases h; exact .provide r t ht
      · cases h
  | eof => cases h

theorem serve_terms (h : c.serve answer progress = some d) : c.terms <+: d.terms := by
  cases serve_serves h with
  | read term t hr => exact List.prefix_append _ _
  | give p ps hp hc => exact List.prefix_refl _
  | provide r t hp => exact List.prefix_refl _

theorem next_terms (h : c.next answer = some d) : c.terms <+: d.terms := by
  unfold next at h
  split at h
  · cases h
    exact List.prefix_refl _
  · exact serve_terms (c := c.stepped) h
  · cases h

theorem after_add (answer : GrammarReference → Grammar) (m n : Nat) (c : Course) :
    c.after answer (m + n) = (c.after answer m).bind (after answer n) := by
  induction n with
  | zero =>
    change c.after answer m = (c.after answer m).bind some
    cases c.after answer m <;> rfl
  | succ n ih =>
    change (c.after answer (m + n)).bind (next answer) = _
    rw [ih, Option.bind_assoc]
    rfl

theorem exists_after_of_le (hle : m ≤ n) (he : start.after answer n = some e) :
    ∃ d, start.after answer m = some d ∧ d.terms <+: e.terms := by
  induction hle generalizing e with
  | refl => exact ⟨e, he, List.prefix_refl _⟩
  | step hle ih =>
    obtain ⟨c, hc, hn⟩ := Option.bind_eq_some_iff.1 he
    obtain ⟨d, hd, hp⟩ := ih hc
    exact ⟨d, hd, hp.trans (next_terms hn)⟩

theorem after_terms (hle : m ≤ n) (hd : start.after answer m = some d)
    (he : start.after answer n = some e) : d.terms <+: e.terms := by
  obtain ⟨d', hd', hp⟩ := exists_after_of_le hle he
  rw [hd] at hd'
  cases hd'
  exact hp

theorem le_of_next_eq_none (hd : start.after answer m = some d)
    (he : start.after answer n = some e) (hn : e.next answer = none) : m ≤ n := by
  apply Nat.le_of_not_lt
  intro hlt
  obtain ⟨c, hc, -⟩ := exists_after_of_le hlt hd
  simp only [after, he, Option.bind_some, hn] at hc
  cases hc

/-- The interpreter is sound, and the phrases that are left to it end with the end of the input. -/
structure Sound (c : Course) : Prop where
  interpreter : c.interpreter.Sound
  started : c.interpreter.started = true
  finished : c.interpreter.finished = true →
    c.interpreter.stack = [] ∧ c.interpreter.workspace.queue.hasOutput = false
  asking : c.interpreter.Asking
  ending : c.interpreter.Ending (c.cell.toList ++ c.phrases)

theorem Sound.stepped (h : c.Sound) : c.stepped.Sound := by
  have hs := Interpreter.step_steps c.interpreter c.cell
  have hsound := (h.interpreter.steps hs).2
  have hasking := h.asking.step h.interpreter c.cell
  have hending := h.ending.step h.interpreter
  unfold Course.stepped
  generalize c.interpreter.step c.cell = r at hs hsound hasking hending ⊢
  obtain ⟨outcome, t, cell⟩ := r
  refine ⟨hsound, ?_, fun hf => ?_, hasking, hending⟩
  · cases hs <;> exact h.started
  · cases hs with
    | output ho => exact h.finished hf
    | finish ho hs => exact ⟨hs, ho⟩
    | lose a below e ho hs he => exact absurd (hs.symm.trans (h.finished hf).1) nofun
    | move a below turn ho hs ht => exact absurd (hs.symm.trans (h.finished hf).1) nofun

theorem Sound.serve (h : c.Sound) (ha : ∀ r, (answer r).Built)
    (hs : c.serve answer progress = some d) : d.Sound := by
  cases serve_serves hs with
  | read term t hr =>
    have ho := Interpreter.hasOutput_of_read hr
    have hasking := h.asking.read h.interpreter hr
    obtain ⟨q, rfl, -, -, -, hsound⟩ := h.interpreter.read_eq hr
    refine ⟨hsound, h.started, fun hf => ?_, hasking, ⟨h.ending.1, h.ending.2⟩⟩
    exact absurd ((h.finished hf).2.symm.trans ho) Bool.false_ne_true
  | give p ps hp hc =>
    have hending := h.ending
    rw [hc, hp] at hending
    exact ⟨h.interpreter, h.started, h.finished, h.asking, hending⟩
  | provide r t hp =>
    have hsound := h.interpreter.provideGrammar (ha r) hp
    obtain ⟨-, rfl⟩ := Interpreter.provideGrammar_ok hp
    exact ⟨hsound, h.started, h.finished, h.asking.withGrammar _ _, ⟨h.ending.1, h.ending.2⟩⟩

inductive Advances (c : Course) : Course → Prop where
  | output (ho : c.interpreter.workspace.queue.hasOutput = true) : Advances c c
  | finish (ho : c.interpreter.workspace.queue.hasOutput = false) (hs : c.interpreter.stack = []) :
      Advances c { c with interpreter := { c.interpreter with finished := true } }
  | move (a : Activation) (below : List Activation) (turn : Turn)
      (ho : c.interpreter.workspace.queue.hasOutput = false)
      (hs : c.interpreter.stack = a :: below)
      (ht : Frame.Turns below c.interpreter.workspace a.result a.frame c.cell turn) :
      Advances c { c with interpreter := c.interpreter.after turn, cell := turn.input }

theorem Sound.advances (h : c.Sound) : c.Advances c.stepped := by
  have hs := Interpreter.step_steps c.interpreter c.cell
  rw [Course.stepped]
  generalize c.interpreter.step c.cell = r at hs ⊢
  obtain ⟨outcome, t, cell⟩ := r
  cases hs with
  | output ho => exact .output ho
  | finish ho hs => exact .finish ho hs
  | lose a below e ho hs he =>
    obtain ⟨turn, ht⟩ := h.interpreter.exists_turn hs c.cell
    rw [he] at ht
    cases ht
  | move a below turn ho hs ht => exact .move a below turn ho hs (Interpreter.stepFrame_turns ht)

theorem Sound.next (h : c.Sound) (ha : ∀ r, (answer r).Built) (hd : c.next answer = some d) :
    d.Sound := by
  unfold Course.next at hd
  split at hd
  · cases hd
    exact h.stepped
  · exact h.stepped.serve ha hd
  · cases hd

/-- Whether the work has ended, and there is something to be done before it goes on. -/
def Rests (progress : Progress) (c : Course) : Prop :=
  c.interpreter.step c.cell = (.ok (some progress), c.interpreter, c.cell)

theorem Awaits.rests (h : c.Awaits progress) : c.stepped.Rests progress := by
  unfold Awaits at h
  have hs : c.interpreter.step c.cell =
      (.ok (some progress), c.stepped.interpreter, c.stepped.cell) := by
    rw [← h]
    rfl
  exact Interpreter.step_again hs

theorem Rests.stepped_eq (h : c.Rests progress) : c.stepped = c := by
  unfold stepped
  rw [h]

theorem Rests.awaits (h : c.Rests progress) : c.Awaits progress := congrArg Prod.fst h

theorem Rests.exists_phrase (h : c.Rests .inputNeeded) (hs : c.Sound) :
    c.cell = none ∧ c.phrases ≠ [] := by
  obtain ⟨hcell, hstack⟩ := Interpreter.step_inputNeeded h
  refine ⟨hcell, fun hn => ?_⟩
  have hends := hs.ending.endsOnce hstack
  rw [hcell, hn] at hends
  exact hends

theorem Rests.queue_eq_nil (h : c.Rests .eof) (hs : c.Sound) :
    c.interpreter.workspace.queue.toList = [] := by
  obtain ⟨hstack, ho⟩ := Interpreter.step_eof h
  have hmarks : c.interpreter.workspace.queue.marks = [] := by
    have hres := hs.interpreter.resources
    rw [hstack] at hres
    exact List.length_eq_zero_iff.1 (congrArg Resources.marks hres)
  exact hs.interpreter.queued.sound.toList_eq_nil ho hmarks

theorem Rests.exists_serve (answer : GrammarReference → Grammar) (h : c.Rests progress)
    (hs : c.Sound) (hp : progress ≠ .eof) : ∃ d, c.serve answer progress = some d := by
  cases progress with
  | outputAvailable =>
    cases Interpreter.step_ends h with
    | output ho =>
      obtain ⟨term, q, hread, -⟩ := hs.interpreter.exists_read ho
      exact ⟨_, by simp only [serve, hread]; rfl⟩
  | inputNeeded =>
    obtain ⟨hcell, hphrases⟩ := h.exists_phrase hs
    obtain ⟨p, ps, hps⟩ := List.exists_cons_of_ne_nil hphrases
    exact ⟨_, by simp only [serve, hps, hcell, Cell.put]; rfl⟩
  | resourceNeeded =>
    obtain ⟨r, hr⟩ := hs.asking.exists_request h
    have hg := (Interpreter.request?_eq_some.1 hr).1
    exact ⟨_, by simp only [serve, hr, Interpreter.provideGrammar, hg]; rfl⟩
  | eof => exact absurd rfl hp

theorem Sound.exists_next (answer : GrammarReference → Grammar) (h : c.Sound)
    (hs : c.interpreter.stack ≠ []) : ∃ d, c.next answer = some d := by
  obtain ⟨⟨progress, hp⟩, -⟩ := h.interpreter.steps (Interpreter.step_steps c.interpreter c.cell)
  rw [Course.next, hp]
  cases progress with
  | none => exact ⟨_, rfl⟩
  | some progress =>
    have ha : c.Awaits progress := hp
    apply ha.rests.exists_serve answer h.stepped
    rintro rfl
    have heof : c.interpreter.step c.cell =
        (.ok (some .eof), c.stepped.interpreter, c.stepped.cell) := by
      rw [← hp]
      rfl
    exact hs (Interpreter.step_eof heof).1

inductive Moves (answer : GrammarReference → Grammar) (c : Course) : Course → Prop where
  | read (term : Term) (t : Interpreter) (hr : c.interpreter.read = .ok (term, t)) :
      Moves answer c { c with interpreter := t, terms := c.terms ++ [term] }
  | work (a : Activation) (below : List Activation) (turn : Turn)
      (ho : c.interpreter.workspace.queue.hasOutput = false)
      (hs : c.interpreter.stack = a :: below)
      (ht : Frame.Turns below c.interpreter.workspace a.result a.frame c.cell turn)
      (hm : (Interpreter.stackAfter turn.move turn.below).1 = none) :
      Moves answer c { c with interpreter := c.interpreter.after turn, cell := turn.input }
  | give (a : Activation) (below : List Activation) (turn : Turn) (f : Frame) (p : Phrase)
      (ps : List Phrase) (ho : c.interpreter.workspace.queue.hasOutput = false)
      (hs : c.interpreter.stack = a :: below)
      (ht : Frame.Turns below c.interpreter.workspace a.result a.frame c.cell turn)
      (hm : turn.move = .needInput f) (hp : c.phrases = p :: ps) :
      Moves answer c
        { c with interpreter := c.interpreter.after turn, cell := some p, phrases := ps }
  | provide (a : Activation) (below : List Activation) (turn : Turn) (f : Frame)
      (r : GrammarReference) (ho : c.interpreter.workspace.queue.hasOutput = false)
      (hs : c.interpreter.stack = a :: below)
      (ht : Frame.Turns below c.interpreter.workspace a.result a.frame c.cell turn)
      (hm : turn.move = .needResource f) :
      Moves answer c { c with
        interpreter := { c.interpreter.after turn with
          workspace := { turn.workspace with grammar := some (answer r) } }
        cell := turn.input }

theorem next_moves (hd : c.next answer = some d) : c.Moves answer d := by
  rw [Course.next] at hd
  have hs := Interpreter.step_steps c.interpreter c.cell
  rw [Course.stepped] at hd
  generalize c.interpreter.step c.cell = r at hs hd
  obtain ⟨outcome, t, cell⟩ := r
  cases hs with
  | output ho =>
    cases serve_serves hd with
    | read term t hr => exact .read term t hr
  | finish ho hs => cases hd
  | lose a below e ho hs he => cases hd
  | move a below turn ho hs ht =>
    have ht := Interpreter.stepFrame_turns ht
    cases hm : turn.move with
    | needInput f =>
      simp only [hm, Interpreter.stackAfter] at hd
      cases serve_serves hd with
      | give p ps hp hc =>
        have hmove : c.Moves answer _ := .give a below turn f p ps ho hs ht hm hp
        rw [Interpreter.after, hm] at hmove
        exact hmove
    | needResource f =>
      simp only [hm, Interpreter.stackAfter] at hd
      cases serve_serves hd with
      | provide r t hp =>
        obtain ⟨-, rfl⟩ := Interpreter.provideGrammar_ok hp
        have hmove : c.Moves answer _ := .provide a below turn f r ho hs ht hm
        rw [Interpreter.after, hm] at hmove
        exact hmove
    | _ =>
      have hmove : c.Moves answer _ := .work a below turn ho hs ht (by rw [hm]; rfl)
      rw [hm] at hd
      rw [Interpreter.after, hm] at hmove
      cases hd
      exact hmove

/-- A course is reached in `n` moves, or its work has ended where one that is reached goes on. -/
def Reaches (answer : GrammarReference → Grammar) (start : Course) (n : Nat) (d : Course) : Prop :=
  ∃ e, start.after answer n = some e ∧ (d = e ∨ (∃ progress, e.Awaits progress) ∧ d = e.stepped)

theorem Reaches.refl (answer : GrammarReference → Grammar) (c : Course) : c.Reaches answer 0 c :=
  ⟨c, rfl, .inl rfl⟩

theorem Reaches.exists_after (h : start.Reaches answer n d) :
    ∃ e, start.after answer n = some e ∧ e.terms = d.terms := by
  obtain ⟨e, he, rfl | ⟨-, rfl⟩⟩ := h
  · exact ⟨_, he, rfl⟩
  · exact ⟨e, he, rfl⟩

theorem Reaches.exists_awaits (h : start.Reaches answer n d) (hr : d.Rests progress) :
    ∃ e, start.after answer n = some e ∧ e.Awaits progress ∧ d = e.stepped := by
  obtain ⟨e, he, rfl | ⟨⟨progress', ha⟩, rfl⟩⟩ := h
  · exact ⟨_, he, hr.awaits, hr.stepped_eq.symm⟩
  · have hsame := ha.rests.awaits.symm.trans hr.awaits
    cases hsame
    exact ⟨e, he, ha, rfl⟩

theorem Awaits.next_eq (h : c.Awaits progress) :
    c.next answer = c.stepped.serve answer progress := by
  unfold Awaits at h
  unfold next
  rw [h]

theorem Awaits.after_succ (h : c.Awaits progress) (n : Nat) :
    c.stepped.after answer (n + 1) = c.after answer (n + 1) := by
  have hnext : c.stepped.next answer = c.next answer := by
    rw [h.rests.awaits.next_eq, h.rests.stepped_eq, h.next_eq]
  rw [Nat.add_comm, after_add, after_add]
  change ((c.stepped.next answer).bind _) = (c.next answer).bind _
  rw [hnext]

theorem Reaches.trans (h : start.Reaches answer n d) (h' : d.Reaches answer m e) :
    start.Reaches answer (n + m) e := by
  obtain ⟨a, ha, hd⟩ := h
  obtain ⟨b, hb, he⟩ := h'
  have hsum := after_add answer n m start
  rw [ha, Option.bind_some] at hsum
  obtain rfl | ⟨⟨progress, hawaits⟩, rfl⟩ := hd
  · exact ⟨b, hsum.trans hb, he⟩
  · cases m with
    | zero =>
      -- no move has been made since the step that ended the work
      cases hb
      refine ⟨a, ha, .inr ⟨⟨progress, hawaits⟩, ?_⟩⟩
      rcases he with rfl | ⟨-, rfl⟩
      · rfl
      · exact hawaits.rests.stepped_eq
    | succ m =>
      rw [hawaits.after_succ] at hb
      exact ⟨b, hsum.trans hb, he⟩

/-- Nothing is reached behind the end. -/
theorem Reaches.le_of_end (hd : start.Reaches answer m d) (he : start.Reaches answer n e)
    (hr : e.Rests .eof) : m ≤ n := by
  obtain ⟨a, ha, -⟩ := hd.exists_after
  obtain ⟨b, hb, hlast, rfl⟩ := he.exists_awaits hr
  exact le_of_next_eq_none ha hb hlast.next_eq

theorem Reaches.end_unique (hd : start.Reaches answer m d) (hr : d.Rests .eof)
    (he : start.Reaches answer n e) (hr' : e.Rests .eof) : d = e := by
  obtain rfl : m = n := Nat.le_antisymm (hd.le_of_end he hr') (he.le_of_end hd hr)
  obtain ⟨a, ha, -, rfl⟩ := hd.exists_awaits hr
  obtain ⟨b, hb, -, rfl⟩ := he.exists_awaits hr'
  rw [ha] at hb
  cases hb
  rfl

/-- What is kept by every step, and by what is done when the work has ended. -/
structure Kept (answer : GrammarReference → Grammar) (P : Course → Prop) : Prop where
  stepped : ∀ {c : Course}, c.Sound → P c → P c.stepped
  serve : ∀ {c d : Course} {progress : Progress}, c.Sound → P c →
    c.serve answer progress = some d → P d

theorem Kept.next {P : Course → Prop} (h : Kept answer P) (hs : c.Sound) (hp : P c)
    (hd : c.next answer = some d) : P d := by
  unfold Course.next at hd
  split at hd
  · cases hd
    exact h.stepped hs hp
  · exact h.serve hs.stepped (h.stepped hs hp) hd
  · cases hd

theorem Kept.after {P : Course → Prop} (h : Kept answer P) (hs : start.Sound)
    (ha : ∀ r, (answer r).Built) (hp : P start) (hd : start.after answer n = some d) :
    P d ∧ d.Sound := by
  induction n generalizing d with
  | zero =>
    cases hd
    exact ⟨hp, hs⟩
  | succ n ih =>
    obtain ⟨c, hc, hn⟩ := Option.bind_eq_some_iff.1 hd
    obtain ⟨hpc, hcs⟩ := ih hc
    exact ⟨h.next hcs hpc hn, hcs.next ha hn⟩

/-- What is kept holds wherever the course comes to. -/
theorem Kept.reaches {P : Course → Prop} (h : Kept answer P) (hs : start.Sound)
    (ha : ∀ r, (answer r).Built) (hp : P start) (hd : start.Reaches answer n d) : P d := by
  obtain ⟨e, he, rfl | ⟨-, rfl⟩⟩ := hd
  · exact (h.after hs ha hp he).1
  · obtain ⟨hpe, hes⟩ := h.after hs ha hp he
    exact h.stepped hes hpe

theorem Sound.reaches (h : start.Sound) (ha : ∀ r, (answer r).Built)
    (hd : start.Reaches answer n d) : d.Sound := by
  have hkept : Kept answer Sound := ⟨fun _ hc => hc.stepped, fun _ hc hs => hc.serve ha hs⟩
  exact hkept.reaches h ha h hd

theorem Reaches.serve (h : start.Reaches answer n c) (hr : c.Rests progress)
    (hs : c.serve answer progress = some d) : start.Reaches answer (n + 1) d := by
  obtain ⟨e, he, ha, rfl⟩ := h.exists_awaits hr
  refine ⟨d, ?_, .inl rfl⟩
  change (start.after answer n).bind _ = _
  rw [he, Option.bind_some, ha.next_eq, hs]

theorem Reaches.stepped (h : start.Reaches answer n c)
    (hs : (c.interpreter.step c.cell).1 = .ok none) : start.Reaches answer (n + 1) c.stepped := by
  obtain ⟨e, he, rfl | ⟨⟨progress, ha⟩, rfl⟩⟩ := h
  · refine ⟨_, ?_, .inl rfl⟩
    change (start.after answer n).bind _ = _
    rw [he, Option.bind_some, next, hs]
  · have hrest := ha.rests.awaits
    unfold Awaits at hrest
    rw [hrest] at hs
    cases hs

/-- A step that ends the work is no move yet. -/
theorem Reaches.stepped_of_awaits (h : start.Reaches answer n c) (ha : c.Awaits progress) :
    start.Reaches answer n c.stepped := by
  obtain ⟨e, he, rfl | ⟨⟨progress', ha'⟩, rfl⟩⟩ := h
  · exact ⟨_, he, .inr ⟨⟨progress, ha⟩, rfl⟩⟩
  · rw [ha'.rests.stepped_eq]
    exact ⟨e, he, .inr ⟨⟨progress', ha'⟩, rfl⟩⟩

/-- The outcomes of calls of at least `fuel` moves together, from where `n` moves lead. -/
inductive Works (answer : GrammarReference → Grammar) (start : Course) (n fuel : Nat) :
    Except Halt Progress → Course → Prop where
  | ended {d : Course} {progress : Progress} (m : Nat) (hle : n ≤ m)
      (hr : start.Reaches answer m d) (hd : d.Sound) (hp : d.Rests progress) :
      Works answer start n fuel (.ok progress) d
  | unfinished {d : Course} (m : Nat) (hle : n + fuel ≤ m) (hr : start.Reaches answer m d)
      (hd : d.Sound) : Works answer start n fuel (.error .unfinished) d

theorem Works.of_le {k fuel : Nat} {result : Except Halt Progress}
    (h : start.Works answer m k result d) (hle : n ≤ m) (hf : n + fuel ≤ m + k) :
    start.Works answer n fuel result d := by
  cases h with
  | ended m' hm hr hd hp => exact .ended m' (Nat.le_trans hle hm) hr hd hp
  | unfinished m' hm hr hd => exact .unfinished m' (Nat.le_trans hf hm) hr hd

theorem Works.exists_reaches {fuel : Nat} {result : Except Halt Progress}
    (h : start.Works answer n fuel result d) : ∃ m, start.Reaches answer m d := by
  cases h with
  | ended m hle hr hd hp => exact ⟨m, hr⟩
  | unfinished m hle hr hd => exact ⟨m, hr⟩

theorem Sound.rests_of_finished (h : c.Sound) (hf : c.interpreter.finished = true) :
    c.Rests .eof := by
  obtain ⟨hs, ho⟩ := h.finished hf
  obtain ⟨⟨ws, stack, started, finished⟩, cell, phrases, terms⟩ := c
  obtain rfl : finished = true := hf
  obtain rfl : stack = [] := hs
  have ho : ws.queue.hasOutput = false := ho
  simp [Rests, Interpreter.step, ho]

theorem run_works (fuel : Nat) (h : c.Sound) (hr : start.Reaches answer n c) :
    start.Works answer n fuel (c.interpreter.run fuel c.cell).1
      { c with
        interpreter := (c.interpreter.run fuel c.cell).2.1
        cell := (c.interpreter.run fuel c.cell).2.2 } := by
  induction fuel generalizing c n with
  | zero => exact .unfinished n (Nat.le_refl _) hr h
  | succ fuel ih =>
    obtain ⟨⟨progress, hp⟩, -⟩ := h.interpreter.steps (Interpreter.step_steps c.interpreter c.cell)
    have hsound := h.stepped
    cases progress with
    | none =>
      have hw := ih hsound (hr.stepped hp)
      rw [Interpreter.run_succ, hp]
      exact hw.of_le (Nat.le_succ n) (by omega)
    | some progress =>
      rw [Interpreter.run_succ, hp]
      exact .ended n (Nat.le_refl n) (hr.stepped_of_awaits hp) hsound (Awaits.rests hp)

theorem parse_works (fuel : Nat) (h : c.Sound) (hr : start.Reaches answer n c) :
    start.Works answer n fuel (c.parse fuel).1 (c.parse fuel).2 := by
  unfold parse Interpreter.parse
  rw [h.started]
  cases hf : c.interpreter.finished with
  | true =>
    exact .ended n (Nat.le_refl n) hr h (h.rests_of_finished hf)
  | false => exact run_works fuel h hr

theorem translate_works {fuel rounds : Nat} (h : c.Sound) (ha : ∀ r, (answer r).Built)
    (hr : start.Reaches answer n c) (hf : rounds ≤ fuel) :
    start.Works answer n rounds (translate answer fuel rounds c).1
        (translate answer fuel rounds c).2 ∧
      ∀ progress, (translate answer fuel rounds c).1 = .ok progress → progress = .eof := by
  -- every round but the last one makes a move of its own when it serves, so `rounds` bounds the moves
  induction rounds generalizing c n with
  | zero => exact ⟨.unfinished n (Nat.le_refl n) hr h, nofun⟩
  | succ rounds ih =>
    have hw := parse_works fuel h hr
    unfold translate
    generalize c.parse fuel = r at hw ⊢
    obtain ⟨result, d⟩ := r
    cases hw with
    | unfinished m hle hr hd => exact ⟨.unfinished m (by omega) hr hd, nofun⟩
    | @ended _ progress m hle hr hd hp =>
      cases hs : d.serve answer progress with
      | none =>
        dsimp only
        rw [hs]
        have heof : progress = .eof := Classical.byContradiction fun hne => by
          obtain ⟨d', hd'⟩ := hp.exists_serve answer hd hne
          rw [hs] at hd'
          cases hd'
        exact ⟨.ended m hle hr hd hp, fun progress' he => (Except.ok.inj he).symm.trans heof⟩
      | some d' =>
        dsimp only
        rw [hs]
        obtain ⟨hw', hn⟩ := ih (hd.serve ha hs) (hr.serve hp hs) (by omega)
        exact ⟨hw'.of_le (by omega) (by omega), hn⟩

/-- A translation that goes as far as another run reads all terms that the other has read. -/
theorem Works.terms_prefix {fuel : Nat} {result : Except Halt Progress}
    (h : start.Works answer 0 fuel result e)
    (hn : ∀ progress, result = .ok progress → progress = .eof)
    (hr : start.Reaches answer m d) (hm : m ≤ fuel ∨ ∃ progress, result = .ok progress) :
    d.terms <+: e.terms := by
  obtain ⟨c, hc, hterms⟩ := hr.exists_after
  rw [← hterms]
  cases h with
  | unfinished m' hle hr' he =>
    obtain ⟨c', hc', hterms'⟩ := hr'.exists_after
    rw [← hterms']
    refine after_terms ?_ hc hc'
    rcases hm with hm | ⟨progress, hp⟩
    · omega
    · cases hp
  | @ended _ progress m' hle hr' he hp =>
    obtain rfl := hn progress rfl
    obtain ⟨c', hc', ha, rfl⟩ := hr'.exists_awaits hp
    change c.terms <+: c'.terms
    exact after_terms (le_of_next_eq_none hc hc' ha.next_eq) hc hc'

/-- When a run has come to its end, a translation that goes further comes to the same end. -/
theorem Works.ends {fuel : Nat} {result : Except Halt Progress}
    (h : start.Works answer 0 fuel result e)
    (hn : ∀ progress, result = .ok progress → progress = .eof)
    (hr : start.Reaches answer m d) (hd : d.Rests .eof)
    (hm : m < fuel ∨ ∃ progress, result = .ok progress) :
    result = .ok .eof ∧ e.terms = d.terms := by
  cases h with
  | unfinished m' hle hr' he =>
    have hle' := hr'.le_of_end hr hd
    rcases hm with hm | ⟨progress, hp⟩
    · omega
    · cases hp
  | @ended _ progress m' hle hr' he hp =>
    obtain rfl := hn progress rfl
    exact ⟨rfl, congrArg Course.terms (hr'.end_unique hp hr hd)⟩

end Course

end TermStream
