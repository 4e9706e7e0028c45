import TermStream.Proofs.Interpreter.Placement

namespace TermStream

open MarkedQueue

def Term.isPart (t : Term) : Bool :=
  t.phrase.any fun p => p.kind == .significant || p.kind == .startBlock

/-- The ends that are still expected after a term, the innermost first. An end must be the one that
is expected next, and a part of a statement must be inside a statement. -/
def Term.nest (expected : List TermKind) (t : Term) : Option (List TermKind) :=
  if t.isPart && !expected.contains .statementEnd then none
  else
    match t.kind.matchingEnd? with
    | some e => some (e :: expected)
    | none =>
      if t.kind.isEnd then
        match expected with
        | e :: expected => if t.kind = e then some expected else none
        | [] => none
      else some expected

def nest (terms : List Term) : Option (List TermKind) := terms.foldlM Term.nest []

namespace Term

variable {t : Term} {expected : List TermKind} {e : TermKind}

theorem nest_start (he : t.kind.matchingEnd? = some e)
    (hp : t.isPart = true → .statementEnd ∈ expected) :
    t.nest expected = some (e :: expected) := by
  rw [nest.eq_def, if_neg (by simpa using hp), he]

theorem nest_end (hk : t.kind.isEnd = true) (hn : t.kind.matchingEnd? = none)
    (hp : t.isPart = false) : t.nest (t.kind :: expected) = some expected := by
  rw [nest.eq_def, if_neg (by simp [hp]), hn]
  dsimp only
  rw [if_pos hk, if_pos rfl]

theorem nest_single (hk : t.kind.shape = .single)
    (hp : t.isPart = true → .statementEnd ∈ expected) : t.nest expected = some expected := by
  have hn : t.kind.matchingEnd? = none := by
    revert hk
    cases t.kind <;> first | exact fun _ => rfl | exact nofun
  rw [nest.eq_def, if_neg (by simpa using hp), hn]
  dsimp only
  rw [if_neg (by simp [TermKind.isEnd, hk])]

/-- A term that opens and closes nothing, and may come anywhere. -/
structure Neutral (t : Term) : Prop where
  single : t.kind.shape = .single
  isPart_eq : t.isPart = false
  ne_eof : t.kind ≠ .eof

theorem Neutral.nest_eq (h : t.Neutral) (expected : List TermKind) :
    t.nest expected = some expected :=
  nest_single h.single fun hp => absurd (h.isPart_eq.symm.trans hp) Bool.false_ne_true

theorem Neutral.stamp (h : t.Neutral) (ws : Workspace) : (ws.stamp t).Neutral :=
  ⟨h.single, h.isPart_eq, h.ne_eof⟩

theorem neutral_ignorable {p : Phrase} (hk : p.kind ≠ .significant ∧ p.kind ≠ .startBlock) :
    (ignorable p).Neutral := by
  refine ⟨rfl, ?_, nofun⟩
  simp [isPart, ignorable, wrap, hk]

end Term

section

variable {terms front back : List Term} {t : Term} {expected : List TermKind}

theorem nest_concat (terms : List Term) (t : Term) :
    nest (terms ++ [t]) = (nest terms).bind fun expected => t.nest expected := by
  rw [nest, List.foldlM_append]
  change (nest terms >>= fun expected => List.foldlM Term.nest expected [t]) = _
  cases nest terms with
  | none => rfl
  | some expected =>
    change (t.nest expected >>= pure) = t.nest expected
    exact bind_pure _

theorem foldlM_nest_neutral (hb : ∀ t ∈ back, t.Neutral) (expected : List TermKind) :
    back.foldlM Term.nest expected = some expected := by
  induction back with
  | nil => rfl
  | cons t back ih =>
    rw [List.foldlM_cons, (hb t List.mem_cons_self).nest_eq]
    exact ih fun t' ht => hb t' (List.mem_cons_of_mem _ ht)

theorem nest_insert (ht : t.Neutral) (h : nest (front ++ back) = some expected) :
    nest (front ++ t :: back) = some expected := by
  rw [nest, List.foldlM_append] at h ⊢
  rw [← h]
  congr 1
  funext mid
  rw [List.foldlM_cons, ht.nest_eq]
  rfl

/-- A start may be put in front of neutral terms. -/
theorem nest_insert_start {e : TermKind} (ht : t.kind.matchingEnd? = some e)
    (hp : t.isPart = false) (hb : ∀ t ∈ back, t.Neutral)
    (h : nest (front ++ back) = some expected) :
    nest (front ++ t :: back) = some (e :: expected) := by
  rw [nest, List.foldlM_append] at h ⊢
  cases hf : front.foldlM Term.nest [] with
  | none =>
    rw [hf] at h
    cases h
  | some mid =>
    rw [hf] at h
    have hmid : back.foldlM Term.nest mid = some expected := h
    rw [foldlM_nest_neutral hb] at hmid
    obtain rfl := Option.some.inj hmid
    change (t :: back).foldlM Term.nest mid = _
    rw [List.foldlM_cons, Term.nest_start ht fun h => absurd (hp.symm.trans h) Bool.false_ne_true]
    exact foldlM_nest_neutral hb _

theorem exists_nest_of_isPart (h : nest (front ++ t :: back) = some expected)
    (hp : t.isPart = true) :
    ∃ open', nest front = some open' ∧ TermKind.statementEnd ∈ open' := by
  rw [nest, List.foldlM_append] at h
  cases hf : front.foldlM Term.nest [] with
  | none =>
    rw [hf] at h
    cases h
  | some mid =>
    rw [hf] at h
    refine ⟨mid, hf, ?_⟩
    have hcons : (t.nest mid >>= fun mid' => back.foldlM Term.nest mid') = some expected := h
    rw [Term.nest.eq_def] at hcons
    split at hcons
    · cases hcons
    · next hc => simpa [hp] using hc

end

/-- The ends that are expected when a frame is on top of frames that expect the ends `expected`. -/
def Frame.expects (expected : List TermKind) : Frame → List TermKind
  | .document f => match f.phase with
    | .properties | .expectString _ => .objectEnd :: .statementEnd :: expected
    | _ => expected
  | .sequence _ | .rule _ => expected
  | .statement f => match f.phase with
    | .body | .tail => .statementEnd :: expected
    | _ => expected
  | .block f => match f.phase with
    | .opening => expected
    | _ => .blockEnd :: expected

def expectedBy : List Activation → List TermKind
  | [] => []
  | a :: below => a.frame.expects (expectedBy below)

def Move.expects (expected : List TermKind) : Move → List TermKind
  | .again f | .needInput f | .needResource f => f.expects expected
  | .call f child => child.expects (f.expects expected)
  | .leave _ => expected

theorem expectedBy_deliver (result : CallResult) (stack : List Activation) :
    expectedBy (Interpreter.deliver result stack) = expectedBy stack := by
  cases stack <;> rfl

theorem expectedBy_stackAfter (move : Move) (below : List Activation) :
    expectedBy (Interpreter.stackAfter move below).2 = move.expects (expectedBy below) := by
  cases move with
  | leave result => exact expectedBy_deliver result below
  | _ => rfl

theorem Voted.expectedBy_eq {ws : Workspace} {p : Phrase} {below below' : List Activation}
    (h : Voted ws p below below') :
    expectedBy below' = expectedBy below := by
  induction h with
  | here f result below resume hv => rfl
  | there f result hv h ih => exact ih

theorem Shaped.statementEnd_mem {a : Activation} {below : List Activation}
    (h : Shaped (a :: below)) (hs : a.frame.sort = .rule ∨ a.frame.sort = .block) :
    .statementEnd ∈ expectedBy below := by
  induction below generalizing a with
  | nil =>
    have hd : a.frame.sort = .document := h
    rcases hs with hs | hs <;> cases hd.symm.trans hs
  | cons b below ih =>
    obtain ⟨frame, result⟩ := b
    have hb := h.1
    cases frame with
    | statement f =>
      rcases hb.statement_phase with hp | hp <;> simp [expectedBy, Frame.expects, hp]
    | rule f => exact ih h.2 (.inl rfl)
    | document f => rcases hs with hs | hs <;> rw [hs] at hb <;> exact hb.elim
    | sequence f => rcases hs with hs | hs <;> rw [hs] at hb <;> exact hb.elim
    | block f => rcases hs with hs | hs <;> rw [hs] at hb <;> exact hb.elim

def Action.isPlain : Action → Bool
  | .report kind _ _ _ _ | .reportBefore kind _ _ => kind.shape == .single && kind != .eof
  | _ => true

/-- A grammar that leaves starts, ends and the end of the input to the frames. -/
def Grammar.Plain (g : Grammar) : Prop := ∀ a ∈ g.actions, a.isPlain = true

instance (g : Grammar) : Decidable g.Plain :=
  inferInstanceAs (Decidable (∀ a ∈ g.actions, a.isPlain = true))

theorem Grammar.plain_standard (script : Bool) : (standard script).Plain := by
  cases script <;> decide

theorem Grammar.Plain.withLoadErrors {g : Grammar} (h : g.Plain) (errors : ErrorChain) :
    (g.withLoadErrors errors).Plain := h

/-- The terms `read` and those in the queue are nested, and the ends `expected` are still to come.
-/
structure Workspace.Nested (read : List Term) (ws : Workspace) (expected : List TermKind) :
    Prop where
  queued : ws.Queued
  nest_eq : nest (read ++ ws.queue.toList) = some expected
  ne_eof : ∀ t ∈ read ++ ws.queue.toList, t.kind ≠ .eof

/-- Only neutral terms are behind the innermost mark. -/
def Workspace.Leads (ws : Workspace) : Prop :=
  ∃ front back, ws.queue.Parts front back ∧ ∀ t ∈ back, t.Neutral

namespace Workspace

variable {ws ws₁ ws₂ : Workspace} {read : List Term} {expected expected' : List TermKind}
  {p : Phrase} {t : Term}

theorem Leads.marks_ne_nil (h : ws.Leads) : ws.queue.marks ≠ [] := by
  obtain ⟨front, back, hp, -⟩ := h
  exact hp.marks_ne_nil

theorem Leads.append (h : ws.Leads) (ht : t.Neutral) : (ws.report t).Leads := by
  obtain ⟨front, back, hp, hb⟩ := h
  refine ⟨front, back ++ [ws.stamp t], hp.append _, fun t' hmem => ?_⟩
  rcases List.mem_append.1 hmem with hmem | hmem
  · exact hb t' hmem
  · obtain rfl := List.mem_singleton.1 hmem
    exact ht.stamp ws

namespace Nested

theorem of_queue_eq (h : ws.Nested read expected) (hq : ws₁.queue = ws.queue) :
    ws₁.Nested read expected where
  queued := ⟨hq ▸ h.queued.sound, hq ▸ h.queued.uncommitted⟩
  nest_eq := hq ▸ h.nest_eq
  ne_eof := hq ▸ h.ne_eof

theorem report (h : ws.Nested read expected) (ht : t.nest expected = some expected')
    (he : t.kind ≠ .eof) : (ws.report t).Nested read expected' := by
  have hqueue : (ws.report t).queue.toList = ws.queue.toList ++ [ws.stamp t] :=
    h.queued.sound.toList_append _
  refine ⟨(ws.wraps_report t h.queued).1, ?_, ?_⟩
  · rw [hqueue, ← List.append_assoc, nest_concat, h.nest_eq]
    exact ht
  · intro t' hmem
    rw [hqueue, ← List.append_assoc] at hmem
    rcases List.mem_append.1 hmem with hmem | hmem
    · exact h.ne_eof t' hmem
    · obtain rfl := List.mem_singleton.1 hmem
      exact he

theorem start {e : TermKind} (h : ws.Nested read expected) (he : t.kind.matchingEnd? = some e)
    (hp : t.isPart = false) : (ws.report t).Nested read (e :: expected) := by
  refine h.report (Term.nest_start he fun h => absurd (hp.symm.trans h) Bool.false_ne_true) ?_
  intro hk
  rw [hk] at he
  cases he

theorem close {kind : TermKind} (h : ws.Nested read (kind :: expected)) (hk : kind.isEnd = true)
    (hn : kind.matchingEnd? = none) (role : Role) (p : Position) :
    (ws.report (.event kind role p)).Nested read expected := by
  refine h.report (Term.nest_end hk hn rfl) ?_
  rintro rfl
  cases hk

theorem neutral (h : ws.Nested read expected) (ht : t.Neutral) :
    (ws.report t).Nested read expected :=
  h.report (ht.nest_eq _) ht.ne_eof

theorem reportError (h : ws.Nested read expected) (code : ErrorCode) (args : List String)
    (start stop : Position) : (ws.reportError code args start stop).Nested read expected :=
  h.neutral ⟨rfl, rfl, nofun⟩

theorem wrap {kind : TermKind} (h : ws.Nested read expected) (hk : kind.shape = .single)
    (he : kind ≠ .eof) (hp : p.kind = .significant ∨ p.kind = .startBlock →
      .statementEnd ∈ expected) (role : Role) (name : Option StructuralName) :
    ((ws.consume p).report ((Term.wrap kind role p).named name)).Nested read expected := by
  have hw : (ws.consume p).Nested read expected := h.of_queue_eq rfl
  refine hw.report (Term.nest_single hk fun hpart => hp ?_) he
  simpa [Term.isPart, Term.wrap, Term.named] using hpart

theorem take (h : ws.Nested read expected) (kind : TermKind) (role : Role)
    (hk : kind.shape = .single) (he : kind ≠ .eof)
    (hp : p.kind = .significant ∨ p.kind = .startBlock → .statementEnd ∈ expected) :
    (ws.take p kind role).Nested read expected :=
  h.wrap hk he hp role none

theorem skip (h : ws.Nested read expected) (hk : p.kind ≠ .significant ∧ p.kind ≠ .startBlock) :
    (ws.skip p).Nested read expected := by
  have hw : (ws.consume p).Nested read expected := h.of_queue_eq rfl
  exact hw.neutral (Term.neutral_ignorable hk)

theorem takeStart {kind e : TermKind} (h : ws.Nested read expected)
    (he : kind.matchingEnd? = some e) (hp : .statementEnd ∈ expected) (role : Role) :
    (ws.take p kind role).Nested read (e :: expected) := by
  have hw : (ws.consume p).Nested read expected := h.of_queue_eq rfl
  refine hw.report (Term.nest_start he fun _ => hp) ?_
  rintro rfl
  cases he

theorem takeEnd {kind : TermKind} (h : ws.Nested read (kind :: expected))
    (hk : kind.isEnd = true) (hn : kind.matchingEnd? = none)
    (hp : p.kind ≠ .significant ∧ p.kind ≠ .startBlock) (role : Role) :
    (ws.take p kind role).Nested read expected := by
  have hw : (ws.consume p).Nested read (kind :: expected) := h.of_queue_eq rfl
  refine hw.report (Term.nest_end hk hn ?_) ?_
  · simp [Term.isPart, Term.wrap, hp]
  · rintro rfl
    cases hk

theorem of_toList_eq (h : ws.Nested read expected) (hq₁ : ws₁.Queued)
    (hl : ws₁.queue.toList = ws.queue.toList) : ws₁.Nested read expected where
  queued := hq₁
  nest_eq := hl ▸ h.nest_eq
  ne_eof := hl ▸ h.ne_eof

theorem pushMark (h : ws.Nested read expected) : ws.pushMark.Nested read expected :=
  h.of_toList_eq (ws.wraps_pushMark h.queued).1 (toList_pushMark _)

theorem popMark (h : ws.Nested read expected) (hm : ws.popMark = .ok ws₁) :
    ws₁.Nested read expected := by
  have hq₁ := (wraps_popMark hm h.queued).1
  obtain ⟨q, hq, rfl⟩ := popMark_ok hm
  exact h.of_toList_eq hq₁ (toList_popMark hq)

theorem ne_eof_insert {front back : List Term} (h : ws.Nested read expected)
    (hl : ws.queue.toList = front ++ back) (he : t.kind ≠ .eof) :
    ∀ t' ∈ read ++ (front ++ t :: back), t'.kind ≠ .eof := by
  intro t' hmem
  have hne := h.ne_eof
  rw [hl] at hne
  rcases List.mem_append.1 hmem with hmem | hmem
  · exact hne t' (List.mem_append_left _ hmem)
  · rcases List.mem_append.1 hmem with hmem | hmem
    · exact hne t' (List.mem_append_right _ (List.mem_append_left _ hmem))
    · rcases List.mem_cons.1 hmem with rfl | hmem
      · exact he
      · exact hne t' (List.mem_append_right _ (List.mem_append_right _ hmem))

theorem reportAtMark (h : ws.Nested read expected) (ht : t.Neutral) (hp : t.phrase = none)
    (hr : ws.reportAtMark t = .ok ws₁) : ws₁.Nested read expected := by
  have hq₁ := (wraps_reportAtMark hp hr h.queued).1
  rcases reportAtMark_ok hr with rfl | ⟨q, hq, rfl⟩
  · exact h.neutral ht
  · obtain ⟨-, front, back, hl, hl'⟩ := h.queued.sound.insertAtMark hq
    have hnest := h.nest_eq
    rw [hl, ← List.append_assoc] at hnest
    refine ⟨hq₁, ?_, ?_⟩
    · change nest (read ++ q.toList) = _
      rw [hl', ← List.append_assoc]
      exact nest_insert (ht.stamp ws) hnest
    · change ∀ t ∈ read ++ q.toList, _
      rw [hl']
      exact h.ne_eof_insert hl ht.ne_eof

/-- The start of a statement comes in front of neutral terms, so that it is open behind them. -/
theorem startStatement {p : Position} (h : ws.Nested read expected) (hf : ws.queue.Fronted)
    (hl : ws.Leads)
    (hs : ws.reportStatementStart (.event .statementStart .unknown p) = .ok ws₁)
    (hm : ws₁.popMark = .ok ws₂) : ws₂.Nested read (.statementEnd :: expected) := by
  obtain ⟨front, back, hp, hb⟩ := hl
  obtain ⟨q, rfl, hq⟩ := toList_startStatement h.queued hf hp hs hm
  have hq₂ := ((wraps_reportStatementStart rfl hs).trans (wraps_popMark hm) h.queued).1
  have hnest := h.nest_eq
  rw [hp.toList_eq, ← List.append_assoc] at hnest
  refine ⟨hq₂, ?_, ?_⟩
  · change nest (read ++ q.toList) = _
    rw [hq, ← List.append_assoc]
    exact nest_insert_start rfl rfl hb hnest
  · change ∀ t ∈ read ++ q.toList, _
    rw [hq]
    exact h.ne_eof_insert hp.toList_eq fun hk => by cases hk

end Nested

end Workspace

end TermStream
