import TermStream.Proofs.Token.Settled
import TermStream.Token.Lexer

namespace TermStream.Lexer

open Text

theorem lexemeWithin_final (l : Lexer) (limit : Nat) (first : Char) (cs : List Char) :
    ∃ found, l.lexemeWithin limit true first cs = some found := by
  unfold lexemeWithin
  dsimp only
  split
  · exact ⟨_, rfl⟩
  · split
    · exact ⟨_, rfl⟩
    · exact ⟨_, rfl⟩

theorem lexemeWithin_append {l : Lexer} {limit : Nat} {first : Char} {cs : List Char}
    {found : Extent} (final : Bool) (more : List Char)
    (h : l.lexemeWithin limit false first cs = some found) :
    l.lexemeWithin limit final first (cs ++ more) = some found := by
  simp only [lexemeWithin, upTo_eq_take] at h ⊢
  rw [List.take_append]
  cases hs :
      (Lexeme.recognize l.atStart l.docComments first (cs.take (limit - 1))).scan.starved with
  | false =>
    simp only [hs, Bool.not_false, if_true] at h
    rw [Lexeme.settles_recognize _ _ _ _ _ hs]
    simp only [Lexeme.extend, Scan.extend_starved, hs, Bool.not_false, if_true]
    rw [← h]
    simp [Lexeme.length, Nat.add_right_comm _ _ 1, Nat.add_sub_add_right]
  | true =>
    simp only [hs, Bool.not_true, if_false, Bool.false_eq_true] at h
    split at h
    · next hl =>
      have hz : limit - 1 - cs.length = 0 := by omega
      have hl' : limit ≤ (cs ++ more).length := by rw [List.length_append]; omega
      rw [hz, List.take_zero, List.append_nil]
      simp only [hs, Bool.not_true, if_false, Bool.false_eq_true, if_pos hl']
      exact h
    · cases h

theorem nextLexeme_final (l : Lexer) (first : Char) (cs : List Char) :
    ∃ found, l.nextLexeme true first cs = some found := by
  obtain ⟨e, he⟩ := l.lexemeWithin_final (l.limit + 1) first cs
  unfold nextLexeme
  rw [he]
  dsimp only
  split
  · exact ⟨_, rfl⟩
  · exact l.lexemeWithin_final l.limit first cs

theorem nextLexeme_append {l : Lexer} {first : Char} {cs : List Char} {found : Extent}
    (final : Bool) (more : List Char) (h : l.nextLexeme false first cs = some found) :
    l.nextLexeme final first (cs ++ more) = some found := by
  unfold nextLexeme at h ⊢
  cases hw : l.lexemeWithin (l.limit + 1) false first cs with
  | none => simp [hw] at h
  | some e =>
    rw [lexemeWithin_append final more hw]
    simp only [hw] at h ⊢
    split
    · next hl => rwa [if_pos hl] at h
    · next hl =>
      rw [if_neg hl] at h
      exact lexemeWithin_append final more h

theorem lexemeWithin_length_eq {l : Lexer} {limit : Nat} {final : Bool} {first : Char}
    {cs : List Char} {found : Extent} (h : l.lexemeWithin limit final first cs = some found) :
    found.length = Lexeme.length
      (Lexeme.recognize l.atStart l.docComments first (upTo (limit - 1) cs))
      (upTo (limit - 1) cs) := by
  unfold lexemeWithin at h
  dsimp only at h
  split at h
  · cases h; rfl
  · split at h
    · cases h; rfl
    · split at h
      · cases h; rfl
      · cases h

theorem lexemeWithin_length {l : Lexer} {limit : Nat} {final : Bool} {first : Char}
    {cs : List Char} {found : Extent} (h : l.lexemeWithin limit final first cs = some found) :
    0 < found.length ∧ found.length ≤ cs.length + 1 := by
  have hr := (Lexeme.recognize_rest_suffix l.atStart l.docComments first
    (upTo (limit - 1) cs)).length_le
  have hv : (upTo (limit - 1) cs).length ≤ cs.length := by
    rw [upTo_eq_take, List.length_take]
    exact Nat.min_le_right _ _
  have hl := lexemeWithin_length_eq h
  unfold Lexeme.length at hl
  omega

theorem nextLexeme_length {l : Lexer} {final : Bool} {first : Char} {cs : List Char}
    {found : Extent} (h : l.nextLexeme final first cs = some found) :
    0 < found.length ∧ found.length ≤ cs.length + 1 := by
  unfold nextLexeme at h
  split at h
  · cases h
  · next e he =>
    split at h
    · cases h
      exact lexemeWithin_length he
    · exact lexemeWithin_length h

/-- The tokens that are still to be read when `cs` is all the text that is left. -/
def ahead (l : Lexer) (cs : List Char) : List Token :=
  l.pending.toList ++
    if l.ended then []
    else
      match cs with
      | [] => [.eof l.position]
      | first :: rest =>
        match h : l.nextLexeme true first rest with
        | none => []
        | some found =>
          have := nextLexeme_length h
          ahead (l.take (l.source.getD "") found ((first :: rest).take found.length))
            ((first :: rest).drop found.length)
termination_by cs.length

def emptied (l : Lexer) : Lexer := { l with pending := none }

theorem ahead_eq_append (l : Lexer) (cs : List Char) :
    l.ahead cs = l.pending.toList ++ l.emptied.ahead cs := by
  rw [ahead.eq_def, ahead.eq_def l.emptied]
  rfl

theorem ahead_ended {l : Lexer} (cs : List Char) (hp : l.pending = none) (he : l.ended = true) :
    l.ahead cs = [] := by
  rw [ahead.eq_def, hp, he]
  rfl

theorem ahead_nil {l : Lexer} (hp : l.pending = none) (he : l.ended = false) :
    l.ahead [] = [.eof l.position] := by
  rw [ahead, hp, he]
  rfl

theorem ahead_cons {l : Lexer} {source : String} {first : Char} {rest : List Char} {found : Extent}
    (hs : l.source = some source) (hp : l.pending = none) (he : l.ended = false)
    (hn : l.nextLexeme true first rest = some found) :
    l.ahead (first :: rest) = (l.take source found ((first :: rest).take found.length)).ahead
      ((first :: rest).drop found.length) := by
  rw [ahead, hp, he]
  simp only [Option.toList_none, List.nil_append, Bool.false_eq_true, if_false]
  split
  · next h => rw [hn] at h; cases h
  · next e h =>
    rw [hn] at h
    cases h
    rw [hs]
    rfl

theorem ahead_read {l l' : Lexer} {t : Token} (cs : List Char) (h : l.read = .ok (t, l')) :
    l.ahead cs = t :: l'.ahead cs := by
  unfold read at h
  rw [ahead_eq_append]
  cases hp : l.pending with
  | none => simp [hp] at h
  | some u =>
    simp only [hp, Except.ok.injEq, Prod.mk.injEq] at h
    obtain ⟨rfl, rfl⟩ := h
    rfl

theorem nodes_chainOf (location : Location) (findings : List Finding) :
    (chainOf location findings).nodes =
      findings.reverse.map fun f => (⟨f.problem, f.args, location⟩, .nil) := by
  have hchain : ∀ chain : ErrorChain,
      (findings.foldl (fun chain f => chain.prepend ⟨f.problem, f.args, location⟩) chain).nodes =
        findings.reverse.map (fun f => (⟨f.problem, f.args, location⟩, .nil)) ++ chain.nodes := by
    induction findings with
    | nil => exact fun _ => rfl
    | cons f findings ih =>
      intro chain
      rw [List.foldl_cons, ih, List.reverse_cons, List.map_append, List.append_assoc]
      rfl
  exact (hchain .nil).trans (List.append_nil _)

def made (l : Lexer) (source : String) (found : Extent) (text : List Char) : Token :=
  let stop := l.position.advanceAll l.previous text
  ⟨found.key, String.ofList text, l.position, stop,
    chainOf ⟨source, l.position, stop⟩ found.findings⟩

def past (l : Lexer) (source : String) (found : Extent) (text : List Char) : Lexer :=
  (l.take source found text).emptied

/-- What holds of the end of the input, and of each token if it holds of those behind it, holds of
all tokens to come. -/
theorem ahead_induction {source : String} {motive : Lexer → List Char → List Token → Prop}
    (last : ∀ l : Lexer, motive l [] [.eof l.position])
    (token : ∀ (l : Lexer) (first : Char) (rest : List Char) (found : Extent) (text : List Char)
      (ts : List Token), l.nextLexeme true first rest = some found →
      text = (first :: rest).take found.length →
      motive (l.past source found text) ((first :: rest).drop found.length) ts →
      motive l (first :: rest) (l.made source found text :: ts))
    {l : Lexer} (cs : List Char) (hs : l.source = some source) (hp : l.pending = none)
    (he : l.ended = false) : motive l cs (l.ahead cs) := by
  induction hn : cs.length using Nat.strongRecOn generalizing l cs with
  | _ n ih =>
    cases cs with
    | nil =>
      rw [ahead_nil hp he]
      exact last l
    | cons first rest =>
      obtain ⟨found, hf⟩ := l.nextLexeme_final first rest
      have hl := nextLexeme_length hf
      have hd : ((first :: rest).drop found.length).length < n := by
        rw [List.length_drop, hn]
        rw [List.length_cons] at hn
        omega
      rw [ahead_cons hs hp he hf, ahead_eq_append]
      exact token l first rest found _ _ hf rfl
        (ih _ hd (l := l.past source found ((first :: rest).take found.length)) _ hs rfl he rfl)

inductive Parsed (l : Lexer) (source : String) (b : Backlog) (final : Bool) :
    Progress → Lexer → Backlog → Prop where
  | pending (t : Token) (hp : l.pending = some t) : Parsed l source b final .outputAvailable l b
  | ended (hp : l.pending = none) (he : l.ended = true) : Parsed l source b final .eof l b
  | last (hp : l.pending = none) (he : l.ended = false) (hb : b.rest = []) (hf : final = true) :
      Parsed l source b final .outputAvailable
        { l with pending := some (.eof l.position), ended := true } b
  | token (first : Char) (cs : List Char) (found : Extent) (hp : l.pending = none)
      (he : l.ended = false) (hb : b.rest = first :: cs)
      (hn : l.nextLexeme final first cs = some found) :
      Parsed l source b final .outputAvailable
        (l.take source found ((first :: cs).take found.length)) (b.consume found.length)
  | starved (hp : l.pending = none) (he : l.ended = false) (hf : final = false) :
      Parsed l source b final .inputNeeded l b

theorem parse_parsed {l : Lexer} {source : String} (b : Backlog) (final : Bool)
    (hs : l.source = some source) :
    ∃ progress l' b', l.parse b final = .ok (progress, l', b') ∧
      Parsed l source b final progress l' b' := by
  unfold parse
  split
  · next hn => rw [hs] at hn; cases hn
  · next s hn =>
    obtain rfl : s = source := Option.some.inj (hn.symm.trans hs)
    split
    · next hp =>
      obtain ⟨t, ht⟩ := Option.isSome_iff_exists.1 hp
      exact ⟨_, _, _, rfl, .pending t ht⟩
    · next hp =>
      have hp : l.pending = none := by simpa using hp
      split
      · next he => exact ⟨_, _, _, rfl, .ended hp he⟩
      · next he =>
        have he : l.ended = false := by simpa using he
        split
        · next hb =>
          split
          · next hf => exact ⟨_, _, _, rfl, .last hp he hb hf⟩
          · next hf => exact ⟨_, _, _, rfl, .starved hp he (by simpa using hf)⟩
        · next first cs hb =>
          cases hl : l.nextLexeme final first cs with
          | some found => exact ⟨_, _, _, rfl, .token first cs found hp he hb hl⟩
          | none =>
            refine ⟨_, _, _, rfl, .starved hp he ?_⟩
            cases final with
            | false => rfl
            | true =>
              obtain ⟨found, hf⟩ := l.nextLexeme_final first cs
              rw [hf] at hl
              cases hl

theorem Parsed.source_eq {l l' : Lexer} {source : String} {b b' : Backlog} {final : Bool}
    {progress : Progress} (h : Parsed l source b final progress l' b') : l'.source = l.source := by
  cases h <;> rfl

/-- A call for a token leaves the tokens to come as they are, whatever text is still to be pushed;
none may be if the call has said that the text is complete. -/
theorem Parsed.ahead_eq {l l' : Lexer} {source : String} {b b' : Backlog} {final : Bool}
    {progress : Progress} {more : List Char} (h : Parsed l source b final progress l' b')
    (hs : l.source = some source) (hm : final = true → more = []) :
    l'.ahead (b'.rest ++ more) = l.ahead (b.rest ++ more) := by
  cases h with
  | pending => rfl
  | ended => rfl
  | starved => rfl
  | last hp he hb hf =>
    rw [hm hf, hb, List.append_nil, ahead_nil hp he, ahead_eq_append, ahead_ended _ rfl rfl]
    rfl
  | token first cs found hp he hb hn =>
    have hl : found.length ≤ (first :: cs).length := (nextLexeme_length hn).2
    have hn' : l.nextLexeme true first (cs ++ more) = some found := by
      cases final with
      | false => exact nextLexeme_append true more hn
      | true => rwa [hm rfl, List.append_nil]
    rw [hb, List.cons_append, ahead_cons hs hp he hn', ← List.cons_append,
      List.take_append_of_le_length hl, List.drop_append_of_le_length hl]
    rw [Backlog.rest_consume, hb]

theorem Parsed.exists_read {l l' : Lexer} {source : String} {b b' : Backlog} {final : Bool}
    (h : Parsed l source b final .outputAvailable l' b') :
    ∃ t, l'.read = .ok (t, l'.emptied) := by
  cases h with
  | pending t hp => exact ⟨t, by unfold read; rw [hp]; rfl⟩
  | last => exact ⟨_, rfl⟩
  | token => exact ⟨_, rfl⟩

theorem ahead_length_le_of_pending {l : Lexer} {source : String} (cs : List Char)
    (hs : l.source = some source) (hp : l.pending = none) :
    (l.ahead cs).length ≤ cs.length + 1 := by
  cases he : l.ended with
  | true => simp [ahead_ended cs hp he]
  | false =>
    refine ahead_induction (motive := fun _ cs ts => ts.length ≤ cs.length + 1) ?_ ?_ cs hs hp he
    · exact fun l => Nat.le_refl _
    · intro l first rest found text ts hf htext ih
      have hl := nextLexeme_length hf
      rw [List.length_drop] at ih
      rw [List.length_cons] at ih ⊢
      rw [List.length_cons]
      omega

theorem ahead_length_le {l : Lexer} {source : String} (cs : List Char)
    (hs : l.source = some source) : (l.ahead cs).length ≤ cs.length + 2 := by
  have ha := ahead_length_le_of_pending (l := l.emptied) cs hs rfl
  rw [ahead_eq_append, List.length_append]
  cases l.pending <;> simp only [Option.toList_none, Option.toList_some, List.length_cons,
    List.length_nil] <;> omega

theorem drain_ahead {fuel : Nat} {l : Lexer} {source : String} {b : Backlog} (out : Array Token)
    (hs : l.source = some source) (hf : (l.ahead b.rest).length < fuel) :
    ∃ l' b', l.drain fuel b true out = .ok (out ++ (l.ahead b.rest).toArray, .eof, l', b') := by
  induction fuel generalizing l b out with
  | zero => exact absurd hf (Nat.not_lt_zero _)
  | succ fuel ih =>
    obtain ⟨progress, l₁, b₁, hok, hp⟩ := parse_parsed b true hs
    have ha : l₁.ahead b₁.rest = l.ahead b.rest := by
      simpa using hp.ahead_eq hs (fun _ => (rfl : ([] : List Char) = []))
    have hs₁ : l₁.source = some source := hp.source_eq.trans hs
    simp only [drain, hok, bind, Except.bind]
    by_cases hprog : progress = .outputAvailable
    · subst hprog
      obtain ⟨t, hr⟩ := hp.exists_read
      have hcons := ahead_read b₁.rest hr
      rw [← ha, hcons, List.length_cons] at hf
      obtain ⟨l', b', hd⟩ := ih (l := l₁.emptied) (b := b₁) (out.push t) hs₁ (by omega)
      refine ⟨l', b', ?_⟩
      simp only [ne_eq, not_true_eq_false, if_false, hr]
      rw [hd, ← ha, hcons]
      simp
    · rw [if_pos hprog]
      cases hp with
      | ended hp he => exact ⟨l, b, by simp [ahead_ended _ hp he, pure, Except.pure]⟩
      | starved hp he hf => cases hf
      | pending => exact absurd rfl hprog
      | last => exact absurd rfl hprog
      | token => exact absurd rfl hprog

theorem readAll_ahead {l : Lexer} {source : String} (b : Backlog) (hs : l.source = some source) :
    ∃ l' b', l.readAll b true = .ok ((l.ahead b.rest).toArray, .eof, l', b') := by
  have hl := ahead_length_le b.rest hs
  have hf : (l.ahead b.rest).length < b.rest.length + 3 := by omega
  obtain ⟨l', b', hd⟩ := drain_ahead #[] hs hf
  exact ⟨l', b', by simpa [readAll] using hd⟩

end TermStream.Lexer

namespace TermStream

/-- The tokens of a source are those that are ahead at the start. -/
theorem tokens_eq_ahead (source text : String) (settings : Settings) :
    tokens source text settings =
      .ok (Lexer.ahead { Lexer.new settings with source := some source, position := .start }
        text.toList) := by
  let l : Lexer := { Lexer.new settings with source := some source, position := .start }
  obtain ⟨l', b', hall⟩ := Lexer.readAll_ahead (l := l) (.ofText text) rfl
  change (l.readAll (.ofText text) true >>= fun r => pure r.1.toList) = _
  rw [hall]
  rfl

end TermStream
