import Mathlib.Data.List.TakeWhile
import TermStream.Proofs.Pipeline.Streaming
import TermStream.Proofs.Standard.Frames

namespace TermStream

open MarkedQueue Descent

namespace Course

open Interpreter

variable {answer : GrammarReference → Grammar} {g : Grammar} {c : Course} {r : CallResult}
  {below : List Activation} {p q : Phrase} {ps : List Phrase} {out : List Term}

/-- The frames of a sequence do what the function does. -/
def SequenceGoes (answer : GrammarReference → Grammar) (g : Grammar) (ps : List Phrase) : Prop :=
  ∀ r below out, (held below).softEnds = 0 →
    Goes answer g ⟨⟨Standard.sequence g, r⟩ :: below, ps, out⟩
      ⟨deliver .success below, (Descent.sequence ps).rest, out ++ (Descent.sequence ps).terms⟩

theorem goes_of_no_eof {v : View} {a : Activation} (h : ∀ p ∈ ps, p.kind ≠ .eof) :
    Goes answer g ⟨a :: below, ps, out⟩ v := by
  intro c hc
  obtain ⟨p, hp, hk⟩ := hc.exists_eof (List.cons_ne_nil _ _)
  exact absurd hk (h p hp)

theorem goes_of_nil {v : View} {a : Activation} : Goes answer g ⟨a :: below, [], out⟩ v :=
  goes_of_no_eof fun _ hp => absurd hp List.not_mem_nil

theorem goes_element (ha : ∀ r, (answer r).Built) (hs : SequenceGoes answer g ps)
    (hp : isPart p = true) (hb : (held below).softEnds = 0) :
    Goes answer g ⟨⟨Standard.rule g 6, r⟩ :: below, p :: ps, out⟩
      ⟨⟨Standard.rule g 0, .none⟩ :: below, (element p ps).rest, out ++ (element p ps).terms⟩ := by
  rw [element]
  by_cases hk : p.kind = .startBlock
  · rw [if_pos hk]
    apply (goes_block_start ha hk hb).trans
    apply (hs _ _ _ rfl).trans
    generalize Descent.sequence ps = inner
    obtain ⟨inner, rest, hle⟩ := inner
    cases rest with
    | nil => exact goes_of_nil
    | cons q rest =>
      by_cases hq : q.kind = .endBlock
      · simp only [if_pos hq]
        rw [← List.append_assoc, List.append_cons out _ inner]
        exact goes_block_close ha hq
      · simp only [if_neg hq]
        rw [← List.append_assoc, List.append_cons out _ inner]
        exact goes_block_breakOff ha hq
  · rw [if_neg hk]
    apply goes_rule_value ha
    cases hkind : p.kind with
    | significant => rfl
    | startBlock => exact absurd hkind hk
    | _ => simp [isPart, hkind] at hp

theorem goes_body (ha : ∀ r, (answer r).Built)
    (hs : ∀ qs : List Phrase, qs.length < ps.length → SequenceGoes answer g qs)
    (hb : (held below).softEnds = 0) :
    Goes answer g
      ⟨⟨Standard.rule g 0, r⟩ :: ⟨Standard.statement g .body false, .none⟩ :: below, ps, out⟩
      ⟨deliver .success below, (body ps).rest, out ++ (body ps).terms⟩ := by
  have hb' : (held (⟨Standard.statement g .body false, .none⟩ :: below)).softEnds = 0 := hb
  induction hn : ps.length using Nat.strongRecOn generalizing ps r out with
  | ind n ih =>
    subst hn
    cases ps with
    | nil => exact goes_of_nil
    | cons p ps =>
      rw [body]
      cases hk : p.kind with
      | ignorable =>
        dsimp only
        rw [List.append_cons]
        exact (goes_rule_ignorable ha hk).trans
          (ih ps.length (Nat.lt_succ_self _) (fun qs hq => hs qs (Nat.lt_succ_of_lt hq)) rfl)
      | significant | startBlock =>
        have hp : isPart p = true := by simp [isPart, hk]
        have hle := (element p ps).rest_le
        dsimp only
        rw [← List.append_assoc]
        apply (goes_rule_advance ha (by simp [hk]) hb').trans
        apply (goes_element ha (hs ps (Nat.lt_succ_self _)) hp hb').trans
        exact ih _ (Nat.lt_succ_of_le hle)
          (fun qs hq => hs qs (Nat.lt_succ_of_lt (Nat.lt_of_lt_of_le hq hle))) rfl
      | softStatementEnd | statementEnd =>
        apply (goes_rule_done ha (by simp [hk]) (by simp [isPart, hk]) hb).trans
        exact goes_statement_finish ha (by simp [hk]) hb
      | control | endBlock | eof =>
        apply (goes_rule_done ha (by simp [hk]) (by simp [isPart, hk]) hb).trans
        exact goes_statement_breakOff ha (by simp [hk])

/-- A statement with what stands in front of it, and then the rest of the sequence. -/
theorem goes_statement_rest (ha : ∀ r, (answer r).Built) (leading : List Phrase)
    (hs : ∀ qs : List Phrase, qs.length ≤ ps.length → SequenceGoes answer g qs)
    (hl : ∀ p ∈ leading, isTrivia p = true) (hp : isPart p = true)
    (hb : (held below).softEnds = 0) :
    Goes answer g ⟨⟨Standard.sequence g, r⟩ :: below, leading ++ p :: ps, out⟩
      ⟨deliver .success below,
        (Descent.sequence (Descent.statement leading p ps).rest).rest,
        out ++ ((Descent.statement leading p ps).terms ++
          (Descent.sequence (Descent.statement leading p ps).rest).terms)⟩ := by
  have hrest := hs _ (Descent.statement leading p ps).rest_le
  rw [Descent.statement] at hrest ⊢
  have hle := (element p ps).rest_le
  have hb₁ : (held (⟨Standard.sequence g, .none⟩ :: below)).softEnds = 0 := hb
  have hb₂ : (held (⟨Standard.statement g .body false, .none⟩ :: ⟨Standard.sequence g, .none⟩ ::
    below)).softEnds = 0 := hb
  dsimp only at hrest ⊢
  simp only [← List.append_assoc]
  apply (goes_statement ha hl hp).trans
  apply (goes_entry ha hp).trans
  apply (goes_element ha (hs ps (Nat.le_refl _)) hp hb₂).trans
  apply (goes_body ha (fun qs hq => hs qs (Nat.le_trans (Nat.le_of_lt hq) hle)) hb₁).trans
  exact hrest _ _ _ hb

theorem goes_trivia_rest (ha : ∀ r, (answer r).Built) {leading : List Phrase}
    (hs : SequenceGoes answer g (p :: ps)) (hn : leading ≠ [])
    (hl : ∀ p ∈ leading, isTrivia p = true) (hp : isPart p = false) (ht : isTrivia p = false)
    (hb : (held below).softEnds = 0) :
    Goes answer g ⟨⟨Standard.sequence g, r⟩ :: below, leading ++ p :: ps, out⟩
      ⟨deliver .success below, (Descent.sequence (p :: ps)).rest,
        out ++ (leading.map passed ++ (Descent.sequence (p :: ps)).terms)⟩ := by
  rw [← List.append_assoc]
  exact (goes_no_statement ha hn hl hp ht).trans (hs _ _ _ hb)

theorem goes_trivia (ha : ∀ r, (answer r).Built)
    (hs : ∀ qs : List Phrase, qs.length ≤ ps.length → SequenceGoes answer g qs)
    (hk : p.kind = .ignorable ∨ p.kind = .softStatementEnd) (hb : (held below).softEnds = 0) :
    Goes answer g ⟨⟨Standard.sequence g, r⟩ :: below, p :: ps, out⟩
      ⟨deliver .success below, (Descent.sequence (p :: ps)).rest,
        out ++ (Descent.sequence (p :: ps)).terms⟩ := by
  have hl : ∀ q ∈ p :: ps.takeWhile isTrivia, isTrivia q = true := by
    intro q hq
    rcases List.mem_cons.1 hq with rfl | hq
    · rcases hk with hk | hk <;> simp [isTrivia, hk]
    · exact List.mem_takeWhile_imp hq
  have hsplit : (p :: ps.takeWhile isTrivia) ++ ps.dropWhile isTrivia = p :: ps := by
    rw [List.cons_append, List.takeWhile_append_dropWhile]
  rw [Descent.sequence]
  rcases hk with hk | hk
  all_goals
    simp only [hk]
    split
    · next hdrop =>
      apply goes_of_no_eof
      rw [← hsplit, hdrop, List.append_nil]
      intro q hq he
      simpa [isTrivia, he] using hl q hq
    · next q rest hdrop =>
      have hlt := length_lt_of_dropWhile hdrop
      rw [hdrop] at hsplit
      split
      · next hq =>
        dsimp only
        rw [← hsplit]
        exact goes_statement_rest ha _
          (fun qs hle => hs qs (Nat.le_trans hle (Nat.le_of_lt hlt))) hl hq hb
      · next hq =>
        have ht : isTrivia q = false := by
          have hhead := List.head_dropWhile_not isTrivia (l := ps) (by simp [hdrop])
          simpa [hdrop] using hhead
        dsimp only
        rw [← hsplit]
        exact goes_trivia_rest ha (hs (q :: rest) hlt) (List.cons_ne_nil _ _) hl
          (by simpa using hq) ht hb

theorem sequence_goes (ha : ∀ r, (answer r).Built) (ps : List Phrase) :
    SequenceGoes answer g ps := by
  induction hn : ps.length using Nat.strongRecOn generalizing ps with
  | ind n ih =>
    subst hn
    intro r below out hb
    cases ps with
    | nil => exact goes_of_nil
    | cons p ps =>
      have hs : ∀ qs : List Phrase, qs.length ≤ ps.length → SequenceGoes answer g qs :=
        fun qs hq => ih qs.length (Nat.lt_succ_of_le hq) qs rfl
      have hps := hs ps (Nat.le_refl _)
      cases hk : p.kind with
      | ignorable | softStatementEnd => exact goes_trivia ha hs (by simp [hk]) hb
      | endBlock | eof =>
        simp only [Descent.sequence, hk, List.append_nil]
        exact goes_sequence_close ha (by simp [hk])
      | control =>
        simp only [Descent.sequence, hk]
        rw [List.append_cons]
        exact (goes_sequence_control ha (.inl hk)).trans (hps _ _ _ hb)
      | statementEnd =>
        simp only [Descent.sequence, hk]
        rw [← List.append_assoc]
        cases ht : p.hasToken with
        | true => exact (goes_sequence_control ha (.inr ⟨hk, ht⟩)).trans (hps _ _ _ hb)
        | false => exact (goes_sequence_drop ha hk ht).trans (hps _ _ _ hb)
      | significant | startBlock =>
        simp only [Descent.sequence, hk]
        exact goes_statement_rest ha [] hs (fun _ hq => absurd hq List.not_mem_nil)
          (by simp [isPart, hk]) hb

theorem Shows.phrases_eq_nil {v : View} (h : c.Shows g v) (hs : v.stack = []) : v.phrases = [] :=
  h.phrases_eq.symm.trans (h.sound.ending.eq_nil (h.stack_eq.trans hs))

variable {f : DocumentFrame}

theorem goes_document_close (ha : ∀ r, (answer r).Built) (hk : p.kind = .eof) :
    Goes answer g ⟨[⟨Standard.document g f, r⟩], p :: ps, out⟩
      ⟨[], [], out ++ [wrapped .eof .unknown p]⟩ := by
  have h : Goes answer g ⟨[⟨Standard.document g f, r⟩], p :: ps, out⟩
      ⟨[], ps, out ++ [wrapped .eof .unknown p]⟩ := by
    refine goes_reading ha (.leave .success) none [wrapped .eof .unknown p] (fun _ => rfl)
      (fun ws r hw => ⟨ws.take p .eof .unknown, ?_, hw.toList_take p _ _⟩) rfl
    simp [stepFrame, Standard.document, DocumentFrame.step, DocumentFrame.goto, DocumentFrame.body,
      hk]
  intro c hc
  obtain ⟨d, hcd, hd⟩ := h c hc
  obtain rfl : ps = [] := hd.phrases_eq_nil rfl
  exact ⟨d, hcd, hd⟩

theorem goes_document_stray (ha : ∀ r, (answer r).Built) (hk : p.kind ≠ .eof) :
    Goes answer g ⟨[⟨Standard.document g f, r⟩], p :: ps, out⟩
      ⟨[⟨Standard.sequence g, .none⟩, ⟨Standard.document g f, .none⟩], ps,
        out ++ [wrapped .control .control p]⟩ := by
  refine goes_reading ha (.call (Standard.document g f) (Standard.sequence g)) none _ (fun _ => rfl)
    (fun ws r hw => ⟨ws.take p .control .control, ?_, hw.toList_take p _ _⟩) rfl
  simp [stepFrame, Standard.document, Standard.sequence, DocumentFrame.step, DocumentFrame.goto,
    DocumentFrame.body, hk]

theorem document_goes (ha : ∀ r, (answer r).Built) (ps : List Phrase) (out : List Term) :
    Goes answer g ⟨[⟨Standard.sequence g, .none⟩, ⟨Standard.document g f, .none⟩], ps, out⟩
      ⟨[], [], out ++ document ps⟩ := by
  induction hn : ps.length using Nat.strongRecOn generalizing ps out with
  | ind n ih =>
    subst hn
    have hstatements := sequence_goes (g := g) ha ps .none [⟨Standard.document g f, .none⟩] out rfl
    rw [document]
    generalize Descent.sequence ps = statements at hstatements ⊢
    obtain ⟨terms, rest, hle⟩ := statements
    apply hstatements.trans
    cases rest with
    | nil => exact goes_of_nil
    | cons p rest =>
      dsimp only
      split
      · next hk =>
        rw [← List.append_assoc]
        exact goes_document_close ha hk
      · next hk =>
        rw [← List.append_assoc, List.append_cons]
        exact (goes_document_stray ha hk).trans (ih rest.length hle rest _ rfl)

theorem goes_start (ha : ∀ r, (answer r).Built) {source : String} {t : Interpreter}
    (ht : Pipeline.openInterpreter source (some (.standard true)) = .ok t)
    (hs : Course.Sound ⟨t, none, ps, []⟩) :
    ∃ d, Leads answer ⟨t, none, ps, []⟩ d ∧
      d.Shows (.standard true) ⟨[⟨Standard.sequence (.standard true), .none⟩,
        ⟨Standard.document (.standard true) .new, .none⟩], ps, []⟩ := by
  cases ht
  have h₀ : Shows (.standard true) _ ⟨[⟨.document .new, .none⟩], ps, []⟩ :=
    ⟨hs, rfl, rfl, rfl, rfl, Grammar.isStandard_standard true, empty_fronted⟩
  let ws : Workspace :=
    { Workspace.new with source := source, grammar := some (.standard true), forced := true }
  have hscript : stepFrame ⟨.document .new, .none⟩ [] ws none =
    .ok ⟨.again (.document (DocumentFrame.new.goto .selectGrammar)), [], ws, none⟩ := rfl
  have hknown : stepFrame ⟨.document (DocumentFrame.new.goto .selectGrammar), .none⟩ [] ws none =
    .ok ⟨.again (.document (DocumentFrame.new.goto .loaded)), [], ws, none⟩ := rfl
  have hload : stepFrame ⟨.document (DocumentFrame.new.goto .loaded), .none⟩ [] ws none =
    .ok ⟨.call (Standard.document (.standard true) .new) (Standard.sequence (.standard true)), [],
      ws, none⟩ := rfl
  obtain ⟨h₁, hs₁⟩ := h₀.leads_turn ha rfl rfl hscript rfl
  obtain ⟨h₂, hs₂⟩ := hs₁.leads_turn ha rfl rfl hknown rfl
  obtain ⟨h₃, hs₃⟩ := hs₂.leads_turn ha rfl rfl hload rfl
  exact ⟨_, (h₁.trans h₂).trans h₃, hs₃⟩

theorem Shows.rests (ha : ∀ r, (answer r).Built) (h : c.Shows g ⟨[], [], out⟩) :
    ∃ d n, Reaches answer c n d ∧ d.Rests .eof ∧ d.terms = out := by
  obtain ⟨d, ⟨n, hn⟩, hd, ho⟩ := h.quiet ha
  have hstack : d.interpreter.stack = [] := hd.stack_eq
  have hawaits : d.Awaits .eof := by simp [Awaits, Interpreter.step, ho, hstack]
  have hrests := hawaits.rests
  refine ⟨d.stepped, n, ⟨d, hn, .inr ⟨⟨.eof, hawaits⟩, rfl⟩⟩, hrests, ?_⟩
  have hqueue : d.stepped.interpreter.workspace.queue.toList = [] :=
    hrests.queue_eq_nil hd.sound.stepped
  have hsame : d.stepped.interpreter.workspace = d.interpreter.workspace := by
    simp [stepped, Interpreter.step, ho, hstack]
  rw [hsame] at hqueue
  have hterms : d.terms ++ d.interpreter.workspace.queue.toList = out := hd.terms_eq
  rwa [hqueue, List.append_nil] at hterms

theorem Leads.exists_end {start : Course} (ha : ∀ r, (answer r).Built)
    (hl : start.Leads answer c) (hc : c.Shows g ⟨[], [], out⟩) :
    ∃ d n, start.Reaches answer n d ∧ d.Rests .eof ∧ d.terms = out := by
  obtain ⟨m, hm⟩ := hl
  obtain ⟨d, n, hd, hrests, hterms⟩ := hc.rests ha
  exact ⟨d, m + n, Reaches.trans ⟨c, hm, .inl rfl⟩ hd, hrests, hterms⟩

/-- Where moves lead to the end, a translation comes to the end with the same terms, and has read
the first of them when it has to stop before. -/
theorem translate_ends {start : Course} (ha : ∀ r, (answer r).Built) (hs : start.Sound)
    (hl : start.Leads answer c) (hc : c.Shows g ⟨[], [], out⟩) :
    (∃ n, ∀ fuel ≥ n, (translate answer fuel fuel start).1 = .ok .eof) ∧
      ∀ fuel, (translate answer fuel fuel start).2.terms <+: out ∧
        ∀ progress, (translate answer fuel fuel start).1 = .ok progress →
          (translate answer fuel fuel start).2.terms = out := by
  obtain ⟨d, m, hreaches, hrests, rfl⟩ := hl.exists_end ha hc
  have hworks := fun fuel => translate_works hs ha (.refl answer start) (Nat.le_refl fuel)
  refine ⟨⟨m + 1, fun fuel hle => ?_⟩, fun fuel => ⟨?_, fun progress hp => ?_⟩⟩
  · obtain ⟨hw, hn⟩ := hworks fuel
    exact (hw.ends hn hreaches hrests (.inl hle)).1
  · obtain ⟨k, hk⟩ := (hworks fuel).1.exists_reaches
    obtain ⟨hw, hn⟩ := hworks (m + 1)
    obtain ⟨hresult, hterms⟩ := hw.ends hn hreaches hrests (.inl (Nat.lt_succ_self _))
    rw [← hterms]
    exact hw.terms_prefix hn hk (.inr ⟨_, hresult⟩)
  · obtain ⟨hw, hn⟩ := hworks fuel
    exact (hw.ends hn hreaches hrests (.inr ⟨progress, hp⟩)).2

end Course

namespace Pipeline

end Pipeline

end TermStream
