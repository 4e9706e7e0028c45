import TermStream.Proofs.Phrase.Pieces
import TermStream.Proofs.Pipeline.Readings

namespace TermStream

namespace Text

theorem pieces_of_cut {size : Nat} {c : Char} {cs : List Char}
    (h : (cut (max size 1 - c.utf8Size) cs).2 = []) : pieces size (c :: cs) = [c :: cs] := by
  have hcut := cut_append (max size 1 - c.utf8Size) cs
  rw [h, List.append_nil] at hcut
  rw [pieces, h, pieces, hcut]

end Text

namespace Pipeline

variable {source : String} {p p' : Pipeline} {more : List Char} {ready : Bool}

theorem final_takePhrase (h : p.takePhrase = .ok (ready, p')) : p'.final = p.final := by
  simp only [takePhrase, bind, Except.bind] at h
  split at h
  · cases h
  · split at h
    · cases h
      rfl
    · split at h
      · cases h
      · split at h
        · cases h
        · cases h
          rfl

theorem final_fillToken (h : p.fillToken = .ok (ready, p')) : p'.final = p.final := by
  simp only [fillToken, bind, Except.bind] at h
  split at h
  · cases h
  · split at h
    · cases h
      rfl
    · split at h
      · cases h
      · split at h
        · cases h
        · cases h
          rfl

theorem final_fillPhrase (h : p.fillPhrase = .ok (ready, p')) : p'.final = p.final := by
  simp only [fillPhrase, bind, Except.bind] at h
  split at h
  · cases h
  · next found hp =>
    have h₁ := final_takePhrase hp
    split at h
    · cases h
      exact h₁
    · split at h
      · cases h
      · next found hq =>
        have h₂ := final_fillToken hq
        split at h
        · exact (final_takePhrase h).trans (h₂.trans h₁)
        · cases h
          exact h₂.trans h₁

theorem takePhrase_false (h : p.Ready source more) (hf : p.takePhrase = .ok (false, p')) :
    p' = p ∧ p.token = none ∧ p.grouper.pending = none ∧ p.grouper.grouping ≠ .afterEof := by
  obtain ⟨progress, g, token, hok, hparsed⟩ := Grouper.parse_parsed p.token h.grouper
  simp only [takePhrase, hok, bind, Except.bind] at hf
  cases hparsed with
  | pending q hp =>
    simp only [reduceCtorEq, or_self, if_false, Grouper.read, hp] at hf
    cases hc : p.phrase <;> simp [hc, Cell.put, pure, Except.pure] at hf
  | ended hp he =>
    simp only [reduceCtorEq, or_self, if_false, Grouper.read, hp, he, if_true] at hf
    cases hc : p.phrase <;> simp [hc, Cell.put, pure, Except.pure] at hf
  | starved hp he hi =>
    cases hf
    exact ⟨rfl, hi, hp, he⟩
  | phrase t hp he hi r hr =>
    simp only [reduceCtorEq, or_self, if_false, Grouper.read] at hf
    cases hc : p.phrase <;> simp [hc, Cell.put, pure, Except.pure] at hf

theorem takePhrase_token (h : p.Ready source more) (ht : p.token ≠ none)
    (hf : p.takePhrase = .ok (ready, p')) : ready = true := by
  cases ready with
  | true => rfl
  | false => exact absurd (takePhrase_false h hf).2.1 ht

theorem fillToken_complete (h : p.Ready source more) (hfinal : p.final = true)
    (hn : p.coming more ≠ []) (ht : p.token = none) (hg : p.grouper.pending = none)
    (hf : p.fillToken = .ok (ready, p')) : ready = true ∧ p'.token ≠ none := by
  obtain ⟨progress, l, b, hok, hparsed⟩ := Lexer.parse_parsed p.backlog p.final h.lexer
  simp only [fillToken, hok, bind, Except.bind] at hf
  by_cases hprogress : progress = .outputAvailable
  · subst hprogress
    obtain ⟨t, hr⟩ := hparsed.exists_read
    simp only [ne_eq, not_true_eq_false, if_false, hr, ht, Cell.put] at hf
    cases hf
    exact ⟨rfl, Option.some_ne_none _⟩
  · cases hparsed with
    | ended hp he =>
      refine absurd ?_ hn
      rw [coming, ht, Lexer.ahead_ended _ hp he, Grouper.ahead, hg]
      exact Grouped.phrasesFrom_nil _ _ _
    | starved hp he hs => exact absurd (hs.symm.trans hfinal) Bool.false_ne_true
    | pending => exact absurd rfl hprogress
    | last => exact absurd rfl hprogress
    | token => exact absurd rfl hprogress

theorem fillPhrase_complete (h : p.Ready source more) (hfinal : p.final = true)
    (hn : p.coming more ≠ []) (hf : p.fillPhrase = .ok (ready, p')) : ready = true := by
  simp only [fillPhrase, bind, Except.bind] at hf
  split at hf
  · cases hf
  · next found hp =>
    obtain ⟨taken, p₁⟩ := found
    cases taken with
    | true =>
      cases hf
      rfl
    | false =>
      obtain ⟨rfl, ht, hg, -⟩ := takePhrase_false h hp
      simp only [Bool.false_eq_true, if_false] at hf
      split at hf
      · cases hf
      · next found hq =>
        obtain ⟨filled, p₂⟩ := found
        obtain ⟨rfl, ht₂⟩ := fillToken_complete h hfinal hn ht hg hq
        exact takePhrase_token (fillToken_hands h hq).1.ready ht₂ hf

namespace Reading.Follows

variable {resolver : Resolver} {start : Course} {terms : List Term}

/-- When the text is complete a pipeline does not ask for more. -/
theorem work_complete (fuel rounds : Nat) (hb : ∀ r g, resolver r = some g → g.Built)
    (h : Follows resolver source start ⟨p, terms⟩ more) :
    (Pipeline.work fuel rounds p).2.final = p.final ∧
      (p.final = true → (Pipeline.work fuel rounds p).1 ≠ .ok .inputNeeded) := by
  induction rounds generalizing p with
  | zero => exact ⟨rfl, fun _ h => by cases h⟩
  | succ rounds ih =>
    obtain ⟨hf, hrests⟩ := h.parse_interpreter fuel
    rw [Pipeline.work]
    generalize p.interpreter.parse fuel p.phrase = result at hf hrests ⊢
    obtain ⟨outcome, t, cell⟩ := result
    cases outcome with
    | error e => exact ⟨rfl, fun _ h => by cases h⟩
    | ok progress =>
      cases progress with
      | inputNeeded =>
        have hrest := hrests _ rfl
        dsimp only
        split
        · exact ⟨rfl, fun _ h => by cases h⟩
        · next p₁ hfill =>
          obtain ⟨hfinal, hne⟩ := ih (hf.fillPhrase hb hrest hfill)
          have hsame := final_fillPhrase hfill
          exact ⟨hfinal.trans hsame, fun hp => hne (hsame.trans hp)⟩
        · next p₁ hfill =>
          have hsame := final_fillPhrase hfill
          refine ⟨hsame, fun hp => ?_⟩
          have hready := fillPhrase_complete hf.ready hp (hrest.exists_phrase hf.sound).2 hfill
          cases hready
      | outputAvailable => exact ⟨rfl, fun _ h => by cases h⟩
      | resourceNeeded => exact ⟨rfl, fun _ h => by cases h⟩
      | eof => exact ⟨rfl, fun _ h => by cases h⟩

theorem runPieces {fuel rounds : Nat} {pieces : List (List Char)} {done transcript : Transcript}
    (hb : ∀ r g, resolver r = some g → g.Built)
    (h : Follows resolver source start ⟨p, done.terms.toList⟩ pieces.flatten)
    (hr : Pipeline.runPieces fuel resolver rounds p pieces done = .ok transcript) :
    ∃ n d, start.Reaches (answer source resolver) n d ∧ d.Sound ∧ d.Rests .eof ∧
      d.terms = transcript.terms.toList := by
  induction rounds generalizing p pieces done with
  | zero => cases hr
  | succ rounds ih =>
    obtain ⟨hf, heof⟩ := h.work fuel fuel hb
    obtain ⟨hfinal, hcomplete⟩ := h.work_complete fuel fuel hb
    rw [Pipeline.runPieces, Pipeline.parse] at hr
    generalize Pipeline.work fuel fuel p = result at hf heof hfinal hcomplete hr
    obtain ⟨outcome, p₁⟩ := result
    cases outcome with
    | error e => cases hr
    | ok progress =>
      cases progress with
      | outputAvailable =>
        dsimp only at hr
        have hread := hf.read hb
        rw [perform] at hread
        cases hp : p₁.read with
        | error m =>
          rw [hp] at hr
          cases hr
        | ok found =>
          obtain ⟨t, p₂⟩ := found
          rw [hp] at hr hread
          have hpush : done.terms.toList ++ [t] = (done.terms.push t).toList :=
            Array.toList_push.symm
          dsimp only at hread
          rw [hpush] at hread
          refine ih ?_ hr
          exact hread
      | resourceNeeded =>
        dsimp only at hr
        have hresolve := hf.resolve hb
        rw [perform] at hresolve
        cases hp : p₁.resolveWith resolver with
        | error m =>
          rw [hp] at hr
          cases hr
        | ok p₂ =>
          rw [hp] at hr hresolve
          refine ih ?_ hr
          exact hresolve
      | inputNeeded =>
        cases pieces with
        | cons piece pieces => exact ih hf.push hr
        | nil =>
          dsimp only at hr
          split at hr
          · next hp => exact absurd rfl (hcomplete (hfinal.symm.trans hp))
          · refine ih ?_ hr
            exact hf.finish
      | eof =>
        cases hr
        obtain ⟨n, hn⟩ := hf.reached
        exact ⟨n, _, hn, hf.sound, heof rfl, rfl⟩

end Reading.Follows

theorem run_eq {fuel : Nat} {text : String} {settings : Settings} {grammar : Option Grammar}
    {resolver : Resolver} (hp : openPipeline source settings grammar = .ok p) :
    run fuel source text settings grammar resolver =
      runPieces fuel resolver fuel p (Text.pieces settings.chunkSize text.toList) ⟨#[], []⟩ := by
  rw [run]
  cases grammar with
  | none =>
    cases hp
    rfl
  | some g =>
    cases hp
    rfl

/-- What a run that ends has read is what the course of all phrases of the source comes to. -/
theorem run_reaches {fuel : Nat} {text : String} {settings : Settings} {grammar : Option Grammar}
    {resolver : Resolver} {transcript : Transcript} (hg : ∀ g, grammar = some g → g.Built)
    (hb : ∀ r g, resolver r = some g → g.Built)
    (hr : run fuel source text settings grammar resolver = .ok transcript) :
    ∃ t ts ps, openInterpreter source grammar = .ok t ∧ tokens source text settings = .ok ts ∧
      phrasesOf source ts = .ok ps ∧ Course.Sound ⟨t, none, ps, []⟩ ∧
      ∃ n d, Course.Reaches (answer source resolver) ⟨t, none, ps, []⟩ n d ∧ d.Sound ∧
        d.Rests .eof ∧ d.terms = transcript.terms.toList := by
  obtain ⟨t, p, ts, ps, ht, hp, htokens, hphrases, hsound, hfollows, -, -⟩ :=
    exists_open source text settings resolver hg
  refine ⟨t, ts, ps, ht, htokens, hphrases, hsound, ?_⟩
  rw [run_eq hp] at hr
  rw [← Text.pieces_flatten settings.chunkSize text.toList] at hfollows
  refine Reading.Follows.runPieces hb ?_ hr
  exact hfollows

theorem exists_run {β : Type} {fuel : Nat} {text : String} {settings : Settings}
    {grammar : Option Grammar} {resolver : Resolver} {f : Transcript → β} {b : β}
    (h : (run fuel source text settings grammar resolver).toOption.map f = some b) :
    ∃ transcript, run fuel source text settings grammar resolver = .ok transcript ∧
      f transcript = b := by
  cases hr : run fuel source text settings grammar resolver with
  | error e =>
    rw [hr] at h
    cases h
  | ok transcript =>
    rw [hr] at h
    exact ⟨transcript, rfl, Option.some.inj h⟩

end Pipeline

end TermStream
