import TermStream.Proofs.Interpreter.Announcements

namespace TermStream

open MarkedQueue Workspace

variable {below : List Activation} {ws : Workspace} {input : Cell Phrase} {turn : Turn}
  {result : CallResult} {read : List Term}

def announcements (g : Grammar) (forced : Bool) : Nat := if forced && g.errors.isEmpty then 0 else 1

theorem announcements_le (g : Grammar) (forced : Bool) : announcements g forced ≤ 1 := by
  unfold announcements
  split <;> decide

def Announces (terms : List Term) : Prop := ∀ t ∈ terms, t.kind = .grammarIsLoaded

namespace DocumentFrame

variable {f : DocumentFrame}

theorem exists_reports_announce (ws : Workspace) (g : Grammar) :
    ∃ ts, ws.Reports (announce ws g) ts ∧ ts.length = announcements g ws.forced ∧
      Announces ts := by
  have hone : ∀ t : Term, t.kind = .grammarIsLoaded → Announces [ws.stamp t] := fun t ht =>
    List.forall_mem_singleton.2 ht
  unfold announce announcements
  cases ws.forced with
  | false =>
    cases g.errors.isEmpty with
    | false => exact ⟨_, reports_report ws _, rfl, hone _ rfl⟩
    | true => exact ⟨_, reports_report ws _, rfl, hone _ rfl⟩
  | true =>
    cases g.errors.isEmpty with
    | false => exact ⟨_, reports_report ws _, rfl, hone _ rfl⟩
    | true => exact ⟨[], reports_refl ws, rfl, List.forall_mem_nil _⟩

theorem exists_reports_chooseContext (f : DocumentFrame) (ws : Workspace) (g : Grammar) :
    ∃ ts, ws.Reports (f.chooseContext ws g).2 ts ∧ Unannounced ts := by
  unfold chooseContext
  split
  · exact ⟨[], reports_refl ws, unannounced_nil⟩
  · split
    · exact ⟨[], reports_refl ws, unannounced_nil⟩
    · obtain ⟨t, ht, hr⟩ := exists_reports_reportError ws Problem.unknownContext _ _ _
      exact ⟨[t], hr, unannounced_nil.error ht⟩

theorem Turns.load_eq {g : Grammar} (h : f.Turns below ws input turn) (hp : f.phase = .loaded)
    (hg : ws.grammar = some g) :
    turn.workspace = (f.chooseContext (announce ws g) g).2 ∧ turn.below = below ∧
      ∃ f' child, turn.move = .call (.document f') (.sequence child) := by
  cases h with
  | load input g' hp' hg' =>
    obtain rfl := Option.some.inj (hg.symm.trans hg')
    exact ⟨rfl, rfl, _, _, rfl⟩
  | hungry hr => simp [Reads, hp] at hr
  | _ => simp_all

end DocumentFrame

theorem Shaped.opened_of_mem {a b : Activation} {f : DocumentFrame} (h : Shaped (a :: below))
    (hb : b ∈ below) (hf : b.frame = .document f) : f.Opened := by
  induction below generalizing a with
  | nil => cases hb
  | cons c below ih =>
    rcases List.mem_cons.1 hb with rfl | hb
    · have hawaits := h.1
      rw [hf] at hawaits
      exact hawaits.document_body
    · exact ih h.2 hb

theorem Interpreter.stackAfter_top {move : Move} {f : Frame} (hm : move.top? = some f)
    (below : List Activation) : (stackAfter move below).2 = ⟨f, .none⟩ :: below := by
  cases move <;> cases hm <;> rfl

namespace Interpreter

variable {t : Interpreter}

/-- All terms of a document in their order: what comes before the grammar, the announcement of the
grammar, and the rest, which announces nothing unless an action of the grammar does. -/
structure Ordered (g : Grammar) (forced : Bool) (terms preface announcement rest : List Term) :
    Prop where
  terms_eq : terms = preface ++ announcement ++ rest
  preface : ∃ strings, Preface preface strings
  length_eq : announcement.length = announcements g forced
  announces : Announces announcement
  rest : g.Silent → Unannounced rest

/-- What a document has come to when the terms `read` have been read. By the time there is a mark
again all terms up to the announcement have been read. -/
inductive Stage (t : Interpreter) (read : List Term) : Prop where
  | opening (f : DocumentFrame) (result : CallResult) (hs : t.stack = [⟨.document f, result⟩])
      (ho : f.Opens read t.workspace.queue.toList)
  | opened (g : Grammar) (preface announcement rest : List Term)
      (hg : t.workspace.grammar = some g)
      (ho : Ordered g t.workspace.forced (read ++ t.workspace.queue.toList) preface announcement
        rest)
      (hm : t.workspace.queue.marks ≠ [] → preface ++ announcement <+: read)
      (hd : OnTop DocumentFrame.Opened t.stack)

theorem Ordered.exists_mid {g : Grammar} {forced : Bool} {preface announcement rest : List Term}
    (h : Ordered g forced (read ++ t.workspace.queue.toList) preface announcement rest)
    (hs : t.Sound) (ho : t.workspace.queue.hasOutput = false)
    (hm : t.workspace.queue.marks ≠ [] → preface ++ announcement <+: read) :
    ∃ mid, read = preface ++ announcement ++ mid ∧ rest = mid ++ t.workspace.queue.toList := by
  by_cases hn : t.workspace.queue.marks = []
  · have hq := hs.queued.sound.toList_eq_nil ho hn
    have hterms := h.terms_eq
    rw [hq, List.append_nil] at hterms
    exact ⟨rest, hterms, by rw [hq, List.append_nil]⟩
  · obtain ⟨mid, rfl⟩ := hm hn
    refine ⟨mid, rfl, ?_⟩
    have hterms := h.terms_eq
    rw [List.append_assoc] at hterms
    exact (List.append_cancel_left hterms).symm

theorem Sound.markCount_document (h : t.Sound) {f : DocumentFrame}
    (hs : t.stack = [⟨.document f, result⟩]) :
    t.workspace.queue.markCount = ((Frame.document f).hold ⟨0, [], 0⟩).marks := by
  have hr := congrArg Resources.marks h.resources
  rw [hs] at hr
  exact hr

theorem Stage.after_opening {f : DocumentFrame} (h : t.Sound) (hfront : t.workspace.queue.Fronted)
    (ho : t.workspace.queue.hasOutput = false) (hs : t.stack = [⟨.document f, result⟩])
    (ht : f.Turns [] t.workspace input turn) (hopens : f.Opens read t.workspace.queue.toList) :
    (t.after turn).Stage read := by
  have hmarks := h.markCount_document hs
  by_cases hload : f.phase = .loaded ∧ t.workspace.grammar.isSome = true
  · obtain ⟨hp, hg⟩ := hload
    obtain ⟨g, hg⟩ := Option.isSome_iff_exists.1 hg
    obtain ⟨hws, hbelow, f', child, hmove⟩ := ht.load_eq hp hg
    have hnone : t.workspace.queue.marks = [] := by
      rw [Frame.hold, hp] at hmarks
      exact List.length_eq_zero_iff.1 hmarks
    obtain ⟨strings, -, hpreface⟩ := (DocumentFrame.opens_complete (.inr (.inr hp))).1 hopens
    rw [h.queued.sound.toList_eq_nil ho hnone, List.append_nil] at hpreface
    obtain ⟨announcement, ha, hlength, hkinds⟩ :=
      DocumentFrame.exists_reports_announce t.workspace g
    obtain ⟨rest, hr, hrest⟩ :=
      f.exists_reports_chooseContext (DocumentFrame.announce t.workspace g) g
    refine .opened g read announcement rest ?_ ⟨?_, ⟨strings, hpreface⟩, ?_, hkinds, fun _ => hrest⟩
      (fun hne => absurd ?_ hne) ?_
    · exact (Frame.Turns.document f ht : Frame.Turns _ _ result _ _ _).grammar_eq.trans hg
    · change read ++ turn.workspace.queue.toList = _
      rw [hws, ((ha.trans hr) h.queued).2, h.queued.sound.toList_eq_nil ho hnone,
        List.append_assoc]
      rfl
    · exact (Frame.Turns.document f ht : Frame.Turns _ _ result _ _ _).forced_eq ▸ hlength
    · change turn.workspace.queue.marks = []
      rw [hws, DocumentFrame.marks_chooseContext, DocumentFrame.marks_announce, hnone]
    · intro f'' result' rest' hstack
      change (stackAfter turn.move turn.below).2 = _ at hstack
      rw [hmove] at hstack
      cases hstack
  · have hleading : f.phase = .leading → t.workspace.queue.markCount = 1 := by
      intro hp
      rw [hmarks, Frame.hold, hp]
      rfl
    obtain ⟨f', htop, hopens'⟩ := ht.opens h.queued hfront hleading hopens fun hp => by
      simpa using fun hg => hload ⟨hp, hg⟩
    have hbelow : turn.below = [] := by cases ht <;> rfl
    refine .opening f' .none ?_ hopens'
    change (stackAfter turn.move turn.below).2 = _
    rw [stackAfter_top htop, hbelow]

/-- Once the statements have begun nothing announces a grammar that is silent. -/
theorem silently_of_opened {a : Activation} {g : Grammar} (h : t.Sound)
    (hg : t.workspace.grammar = some g) (hsilent : g.Silent) (hs : t.stack = a :: below)
    (hd : OnTop DocumentFrame.Opened t.stack)
    (ht : Frame.Turns below t.workspace a.result a.frame input turn) :
    t.workspace.Silently turn.workspace := by
  obtain ⟨frame, result⟩ := a
  have hfits := h.fits
  rw [hs, hg] at hfits
  apply ht.silently
  · rintro f rfl
    exact hd f result below hs
  · rintro f rfl
    have hf : f.Fits (some g) := hfits _ List.mem_cons_self
    exact Option.some.inj hf.grammar_eq ▸ hsilent

/-- The order of the terms is kept by every step. -/
theorem Stage.after {a : Activation} (hst : t.Stage read) (h : t.Sound)
    (hfront : t.workspace.queue.Fronted) (ho : t.workspace.queue.hasOutput = false)
    (hs : t.stack = a :: below) (ht : Frame.Turns below t.workspace a.result a.frame input turn) :
    (t.after turn).Stage read := by
  cases hst with
  | opening f result hs' hopens =>
    rw [hs] at hs'
    cases hs'
    cases ht with
    | document f ht => exact .after_opening h hfront ho hs ht hopens
  | opened g preface announcement rest hg hord hm hd =>
    obtain ⟨mid, rfl, rfl⟩ := hord.exists_mid h ho hm
    have hshaped := h.shaped
    rw [hs] at hshaped
    refine .opened g preface announcement (mid ++ turn.workspace.queue.toList) ?_
      ⟨?_, hord.preface, ?_, hord.announces, fun hsilent => ?_⟩ (fun _ => List.prefix_append _ _) ?_
    · exact ht.grammar_eq.trans hg
    · exact List.append_assoc _ _ _
    · exact ht.forced_eq ▸ hord.length_eq
    · obtain ⟨hmid, hqueue⟩ := unannounced_append.1 (hord.rest hsilent)
      refine unannounced_append.2 ⟨hmid, fun u hu => ?_⟩
      exact ((silently_of_opened h hg hsilent hs hd ht h.queued).2 u hu).elim (hqueue u) id
    · refine ht.onTop hshaped (fun f hf => hf) ?_
      intro f f' hf hmove
      obtain ⟨frame, result⟩ := a
      obtain rfl : frame = .document f := hf
      cases ht with
      | document f ht => exact ht.opened (hd f result below hs) hmove

theorem Stage.after_read {t' : Interpreter} {term : Term} (hst : t.Stage read) (h : t.Sound)
    (hr : t.read = .ok (term, t')) : t'.Stage (read ++ [term]) := by
  obtain ⟨q, rfl, hl, hmarks, hm, -⟩ := h.read_eq hr
  have hall : read ++ t.workspace.queue.toList = read ++ [term] ++ q.toList := by
    rw [hl, List.append_assoc]
    rfl
  cases hst with
  | opening f result hs hopens =>
    have hleading : f.phase ≠ .leading := by
      intro hp
      have hcount := h.markCount_document hs
      rw [MarkedQueue.markCount, hmarks, Frame.hold, hp] at hcount
      cases hcount
    rw [hl] at hopens
    exact .opening f result hs (hopens.after_read hleading)
  | opened g preface announcement rest hg hord hm' hd =>
    refine .opened g preface announcement rest hg ?_ (fun hne => absurd hm hne) hd
    exact hall ▸ hord

theorem Stage.finish (h : t.Stage read) : Stage { t with finished := true } read := by
  cases h with
  | opening f result hs ho => exact .opening f result hs ho
  | opened g preface announcement rest hg hord hm hd =>
    exact .opened g preface announcement rest hg hord hm hd

theorem Stage.withGrammar (h : t.Stage read) (hn : t.workspace.grammar = none) (g : Grammar)
    (forced : Bool) :
    Stage { t with workspace := { t.workspace with grammar := some g, forced := forced } }
      read := by
  cases h with
  | opening f result hs ho => exact .opening f result hs ho
  | opened g preface announcement rest hg hord hm hd => cases hn.symm.trans hg

/-- What holds of an interpreter that has been started, when the terms `read` have been read. -/
structure Handshake (t : Interpreter) (read : List Term) : Prop where
  sound : t.Sound
  started : t.started = true
  finished : t.finished = true → t.stack = [] ∧ t.workspace.queue.hasOutput = false
  asking : t.Asking
  fronted : t.workspace.queue.Fronted
  unforced : t.workspace.grammar = none → t.workspace.forced = false
  stage : t.Stage read
  requested : ∀ f below r, t.stack = ⟨.document f, .none⟩ :: below → t.request? = some r →
    r = ⟨f.publicId, f.systemId⟩

/-- What the work of an interpreter leaves as it is: the grammar it has been given, and what it has
asked for. It asks once, and only without a grammar. -/
structure Asks (t t' : Interpreter) : Prop where
  grammar_eq : t'.workspace.grammar = t.workspace.grammar
  forced_eq : t'.workspace.forced = t.workspace.forced
  request_eq : t'.workspace.request = t.workspace.request ∨
    t.workspace.grammar = none ∧ t.workspace.request = none

theorem Asks.refl (t : Interpreter) : t.Asks t := ⟨rfl, rfl, .inl rfl⟩

theorem Asks.trans {t₁ t₂ : Interpreter} (h : t.Asks t₁) (h' : t₁.Asks t₂) : t.Asks t₂ := by
  refine ⟨h'.grammar_eq.trans h.grammar_eq, h'.forced_eq.trans h.forced_eq, ?_⟩
  rcases h.request_eq with hr | hr
  · rcases h'.request_eq with hr' | ⟨hg, hr'⟩
    · exact .inl (hr'.trans hr)
    · exact .inr ⟨h.grammar_eq.symm.trans hg, hr.symm.trans hr'⟩
  · exact .inr hr

theorem Handshake.step (h : t.Handshake read) (input : Cell Phrase) :
    (t.step input).2.1.Handshake read ∧ t.Asks (t.step input).2.1 := by
  have hs := step_steps t input
  have hsound := (h.sound.steps hs).2
  have hasking := h.asking.step h.sound input
  cases hreq : t.request? with
  | some r =>
    rw [h.asking.step_eq hreq]
    exact ⟨h, .refl t⟩
  | none =>
    generalize t.step input = r at hs hsound hasking ⊢
    obtain ⟨outcome, t', input'⟩ := r
    cases hs with
    | output ho => exact ⟨h, .refl _⟩
    | finish ho hstack =>
      exact ⟨⟨hsound, h.started, fun _ => ⟨hstack, ho⟩, hasking, h.fronted, h.unforced,
        h.stage.finish, h.requested⟩, rfl, rfl, .inl rfl⟩
    | lose a below e ho hs he =>
      obtain ⟨turn, ht⟩ := h.sound.exists_turn hs input'
      rw [he] at ht
      cases ht
    | move a below turn ho hs ht =>
      have hturn := stepFrame_turns ht
      refine ⟨⟨hsound, h.started, fun hf => ?_, hasking,
        hturn.keepsFront h.sound.queued ho h.fronted, fun hn => ?_,
        h.stage.after h.sound h.fronted ho hs hturn, ?_⟩, hturn.grammar_eq, hturn.forced_eq, ?_⟩
      · exact absurd (hs.symm.trans (h.finished hf).1) (List.cons_ne_nil _ _)
      · exact hturn.forced_eq.trans (h.unforced (hturn.grammar_eq.symm.trans hn))
      · intro f below' r hstack hr
        obtain ⟨hg, hr⟩ := request?_eq_some.1 hr
        rcases hturn.grammars_eq with he | ⟨f', -, -, rfl⟩
        · obtain ⟨hg', hr', -⟩ := grammars_eq_iff.1 he
          cases hreq.symm.trans (request?_eq_some.2 ⟨hg'.symm.trans hg, hr'.symm.trans hr⟩)
        · cases hstack
          exact (Option.some.inj hr).symm
      · rcases hturn.grammars_eq with he | ⟨-, -, hg, -⟩
        · exact .inl (grammars_eq_iff.1 he).2.1
        · refine .inr ⟨hg, ?_⟩
          cases hr : t.workspace.request with
          | none => rfl
          | some r => cases hreq.symm.trans (request?_eq_some.2 ⟨hg, hr⟩)

theorem Handshake.parse (h : t.Handshake read) (fuel : Nat) (input : Cell Phrase) :
    (t.parse fuel input).2.1.Handshake read ∧ t.Asks (t.parse fuel input).2.1 := by
  cases hf : t.finished with
  | true =>
    rw [parse_finished h.started hf]
    exact ⟨h, .refl t⟩
  | false =>
    rw [parse_eq_run h.started hf]
    refine run_preserves (P := fun t' _ => t'.Handshake read ∧ t.Asks t') ?_ ⟨h, .refl t⟩
    intro t' input' ⟨h', ha⟩
    obtain ⟨h'', ha'⟩ := h'.step input'
    exact ⟨h'', ha.trans ha'⟩

theorem Handshake.after_read {t' : Interpreter} {term : Term} (h : t.Handshake read)
    (hr : t.read = .ok (term, t')) : t'.Handshake (read ++ [term]) ∧ t.Asks t' := by
  have ho := hasOutput_of_read hr
  have hasking := h.asking.read h.sound hr
  have hstage := h.stage.after_read h.sound hr
  obtain ⟨q, rfl, -, -, hmarks, hsound⟩ := h.sound.read_eq hr
  refine ⟨⟨hsound, h.started, fun hf => ?_, hasking, ?_, h.unforced, hstage, h.requested⟩,
    rfl, rfl, .inl rfl⟩
  · exact absurd ((h.finished hf).2.symm.trans ho) Bool.false_ne_true
  · exact MarkedQueue.empty_fronted.of_marks_eq hmarks

theorem Handshake.give {g : Grammar} (h : t.Handshake read) (hn : t.workspace.grammar = none)
    (hb : g.Built) (forced : Bool) :
    Handshake { t with workspace := { t.workspace with grammar := some g, forced := forced } }
      read where
  sound := h.sound.withGrammar hb hn
  started := h.started
  finished := h.finished
  asking := h.asking.withGrammar g forced
  fronted := h.fronted
  unforced := fun hg => absurd hg (Option.some_ne_none g)
  stage := h.stage.withGrammar hn g forced
  requested := fun _ _ r _ hr => absurd hr (Option.not_mem_none r)

theorem Handshake.start {source : String} (hs : new.start source = .ok t) : t.Handshake [] := by
  have hsound := new_sound.start rfl hs
  cases hs
  refine ⟨hsound, rfl, fun hf => ?_, ⟨fun _ hr => ?_, ?_⟩, MarkedQueue.empty_fronted, fun _ => rfl,
    ?_, fun _ _ _ _ hr => ?_⟩
  · cases hf
  · cases hr
  · intro a ha
    cases ha
    exact ⟨nofun, nofun⟩
  · refine .opening .new .none rfl ((DocumentFrame.opens_start rfl).2 ⟨?_, rfl, rfl⟩)
    intro property
    cases property <;> rfl
  · cases hr

theorem Handshake.exists_request (h : t.Handshake read) (fuel : Nat) (input : Cell Phrase)
    (hp : (t.parse fuel input).1 = .ok .resourceNeeded) :
    ∃ r, (t.parse fuel input).2.1.request? = some r := by
  have hasking := (h.parse fuel input).1.asking
  cases hf : t.finished with
  | true =>
    rw [parse_finished h.started hf] at hp
    cases hp
  | false =>
    rw [parse_eq_run h.started hf] at hp hasking ⊢
    obtain ⟨t₀, input₀, hs⟩ := exists_step_of_run hp
    exact hasking.exists_request hs

theorem Handshake.finished_of_eof (h : t.Handshake read) (fuel : Nat) (input : Cell Phrase)
    (hp : (t.parse fuel input).1 = .ok .eof) : (t.parse fuel input).2.1.finished = true := by
  cases hf : t.finished with
  | true =>
    rw [parse_finished h.started hf]
    exact hf
  | false =>
    rw [parse_eq_run h.started hf] at hp ⊢
    obtain ⟨t₀, input₀, hs⟩ := exists_step_of_run hp
    generalize t.run fuel input = r at hs ⊢
    obtain ⟨outcome, t', input'⟩ := r
    cases step_ends hs with
    | finish ho hstack => rfl

/-- As long as a grammar is asked for a call comes to that and changes nothing. -/
theorem Handshake.parse_eq {r : GrammarReference} (h : t.Handshake read) (hr : t.request? = some r)
    (fuel : Nat) (input : Cell Phrase) :
    t.parse (fuel + 1) input = (.ok .resourceNeeded, t, input) := by
  obtain ⟨hg, hreq⟩ := request?_eq_some.1 hr
  obtain ⟨-, f, below, hs, -⟩ := h.asking.waits hg (by rw [hreq]; rfl)
  have hf : t.finished = false := by
    refine Bool.eq_false_iff.2 fun hf => ?_
    rw [(h.finished hf).1] at hs
    cases hs
  rw [parse_eq_run h.started hf, run, h.asking.step_eq hr input]

theorem Handshake.exists_preface {r : GrammarReference} (h : t.Handshake read)
    (hr : t.request? = some r) : ∃ strings, Preface read strings ∧ r = referenceOf strings := by
  obtain ⟨hg, hreq⟩ := request?_eq_some.1 hr
  obtain ⟨ho, f, below, hs, hp⟩ := h.asking.waits hg (by rw [hreq]; rfl)
  cases h.stage with
  | opened g preface announcement rest hg' => cases hg.symm.trans hg'
  | opening f' result hs' hopens =>
    rw [hs] at hs'
    cases hs'
    have hmarks := h.sound.markCount_document hs
    rw [Frame.hold, hp] at hmarks
    have hnone := h.sound.queued.sound.toList_eq_nil ho (List.length_eq_zero_iff.1 hmarks)
    obtain ⟨strings, hf, hpreface⟩ := (DocumentFrame.opens_complete (.inr (.inl hp))).1 hopens
    rw [hnone, List.append_nil] at hpreface
    refine ⟨strings, hpreface, ?_⟩
    rw [h.requested f [] r hs hr, referenceOf, ← hf .publicId, ← hf .systemId]
    rfl

theorem Handshake.exists_ordered (h : t.Handshake read) (hf : t.finished = true) :
    ∃ g preface announcement rest, t.workspace.grammar = some g ∧
      Ordered g t.workspace.forced read preface announcement rest := by
  obtain ⟨hs, ho⟩ := h.finished hf
  have hmarks : t.workspace.queue.markCount = 0 := by
    have hr := congrArg Resources.marks h.sound.resources
    rw [hs] at hr
    exact hr
  have hnone := h.sound.queued.sound.toList_eq_nil ho (List.length_eq_zero_iff.1 hmarks)
  cases h.stage with
  | opening f result hs' hopens =>
    rw [hs] at hs'
    cases hs'
  | opened g preface announcement rest hg hord hm hd =>
    rw [hnone, List.append_nil] at hord
    exact ⟨g, preface, announcement, rest, hg, hord⟩

namespace Ordered

variable {g : Grammar} {forced : Bool} {terms preface announcement rest before after : List Term}
  {term : Term}

theorem countP_eq (h : Ordered g forced terms preface announcement rest) (hs : g.Silent) :
    terms.countP (fun t => t.kind = .grammarIsLoaded) = announcements g forced := by
  obtain ⟨strings, hpreface⟩ := h.preface
  have hfront : preface.countP (fun t => t.kind = .grammarIsLoaded) = 0 :=
    List.countP_eq_zero.2 fun t ht => by simpa using hpreface.unannounced t ht
  have hmid : announcement.countP (fun t => t.kind = .grammarIsLoaded) = announcement.length :=
    List.countP_eq_length.2 fun t ht => by simpa using h.announces t ht
  have hback : rest.countP (fun t => t.kind = .grammarIsLoaded) = 0 :=
    List.countP_eq_zero.2 fun t ht => by simpa using h.rest hs t ht
  rw [h.terms_eq, List.countP_append, List.countP_append, hfront, hmid, hback, h.length_eq,
    Nat.zero_add, Nat.add_zero]

theorem eq_preface (h : Ordered g forced terms preface announcement rest) (hs : g.Silent)
    (ht : terms = before ++ term :: after) (hk : term.kind = .grammarIsLoaded) :
    before = preface := by
  obtain ⟨strings, hpreface⟩ := h.preface
  have hrest := h.rest hs
  have hall := h.terms_eq.symm.trans ht
  rw [List.append_assoc, List.append_eq_append_iff] at hall
  rcases hall with ⟨more, rfl, hmore⟩ | ⟨more, rfl, hmore⟩
  · cases more with
    | nil => exact List.append_nil _
    | cons first more =>
      -- there is at most one announcement, and nothing behind it announces anything
      have hmem : term ∈ (announcement ++ rest).tail := by
        rw [hmore]
        exact List.mem_append_right _ List.mem_cons_self
      have hle := announcements_le g forced
      cases announcement with
      | nil => exact absurd hk (hrest term (List.mem_of_mem_tail hmem))
      | cons u us =>
        rw [← h.length_eq, List.length_cons] at hle
        obtain rfl : us = [] := List.eq_nil_of_length_eq_zero (by omega)
        exact absurd hk (hrest term hmem)
  · cases more with
    | nil => exact (List.append_nil _).symm
    | cons first more =>
      obtain ⟨rfl, -⟩ := List.cons.inj hmore
      exact absurd hk (hpreface.unannounced _ (List.mem_append_right _ List.mem_cons_self))

end Ordered

/-- Only what comes before the grammar is read before its announcement. -/
theorem Handshake.exists_before {before after : List Term} {term : Term} (h : t.Handshake read)
    (hsilent : ∀ g, t.workspace.grammar = some g → g.Silent) (hr : read = before ++ term :: after)
    (hk : term.kind = .grammarIsLoaded) : ∃ strings, Preface before strings := by
  have hall : read ++ t.workspace.queue.toList =
      before ++ term :: (after ++ t.workspace.queue.toList) := by
    rw [hr, List.append_assoc, List.cons_append]
  cases h.stage with
  | opening f result hs hopens =>
    have hmem : term ∈ read ++ t.workspace.queue.toList := by rw [hall]; simp
    exact absurd hk (hopens.unannounced term hmem)
  | opened g preface announcement rest hg hord hm hd =>
    rw [hord.eq_preface (hsilent g hg) hall hk]
    exact hord.preface

theorem Handshake.exists_accepts {f : DocumentFrame} (h : t.Handshake read)
    (hf : ⟨.document f, result⟩ ∈ t.stack) :
    f.Opened ∨ ∃ strings, f.Remembers strings ∧
      Accepts (read ++ t.workspace.queue.toList) strings := by
  cases h.stage with
  | opening f' result' hs hopens =>
    rw [hs] at hf
    obtain ⟨rfl, rfl⟩ : f = f' ∧ result = result' := by simpa using hf
    exact .inr hopens.exists_accepts
  | opened g preface announcement rest hg hord hm hd =>
    have hshaped := h.sound.shaped
    cases hs : t.stack with
    | nil => simp [hs] at hf
    | cons a below =>
      rw [hs] at hf hshaped
      rcases List.mem_cons.1 hf with rfl | hf
      · exact .inl (hd f result below hs)
      · exact .inl (hshaped.opened_of_mem hf rfl)

end Interpreter

end TermStream
