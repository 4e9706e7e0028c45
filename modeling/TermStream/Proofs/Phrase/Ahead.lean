import TermStream.Phrase.Grouper
import TermStream.Proofs.Token.Tiling

namespace TermStream

/-- How many boundaries can be put in front of a token before it is taken: the end of a statement,
and for each open block its end and the end of the statement around it. -/
def pendingBoundaries (g : Grouping) (blocks : List OpenBlock) : Nat :=
  2 * blocks.length +
    match g with
    | .statement | .statementAfterSoft => 1
    | _ => 0

namespace Grouped

def Advances (r : Grouped) (n : Nat) : Prop :=
  r.taken = true ∨ pendingBoundaries r.grouping r.blocks < n

theorem atEof_advances (source : String) (t : Token) {blocks : List OpenBlock} {n : Nat}
    (hn : 2 * blocks.length ≤ n) : (atEof source t blocks).Advances n := by
  cases blocks with
  | nil => exact .inl rfl
  | cons block blocks =>
    apply Or.inr
    change 2 * blocks.length + 1 < n
    rw [List.length_cons] at hn
    omega

theorem between_advances (source : String) (g : Grouping) (t : Token) {blocks : List OpenBlock}
    {n : Nat} (hn : 2 * blocks.length ≤ n) : (between source g blocks t).Advances n := by
  unfold between
  split
  · exact atEof_advances source t hn
  · exact .inl rfl
  · exact .inl rfl
  · split <;> exact .inl rfl
  · split <;> exact .inl rfl

theorem inside_advances (g : Grouping) (t : Token) {blocks : List OpenBlock} {n : Nat}
    (hn : 2 * blocks.length < n) : (inside g blocks t).Advances n := by
  unfold inside
  split
  · exact .inr hn
  · refine .inr ?_
    dsimp only [leaving]
    split <;> exact hn
  · exact .inl rfl
  · exact .inl rfl
  · split
    · exact .inl rfl
    · split <;> exact .inl rfl

theorem ofToken_advances (source : String) (g : Grouping) (blocks : List OpenBlock) (t : Token) :
    (ofToken source g blocks t).Advances (pendingBoundaries g blocks) := by
  cases g with
  | statementSequence | afterBlockStart => exact between_advances source _ t (Nat.le_refl _)
  | statement | statementAfterSoft => exact inside_advances _ t (Nat.lt_succ_self _)
  | beforeBlockEnd =>
    unfold ofToken
    dsimp only
    split
    · exact .inl rfl
    · exact between_advances source _ t (Nat.le_refl _)
  | beforeEof | afterEof => exact atEof_advances source t (Nat.le_refl _)

def phrasesFrom (source : String) (g : Grouping) (blocks : List OpenBlock) (ts : List Token) :
    List Phrase :=
  if g = .afterEof then []
  else
    match ts with
    | [] => []
    | t :: ts =>
      let r := ofToken source g blocks t
      have := ofToken_advances source g blocks t
      r.phrase :: phrasesFrom source r.grouping r.blocks (if r.taken then ts else t :: ts)
termination_by (ts.length, pendingBoundaries g blocks)
decreasing_by
  cases ht : (ofToken source g blocks t).taken with
  | true => exact Prod.Lex.left _ _ (Nat.lt_succ_self _)
  | false =>
    rcases this with h | h
    · exact absurd (ht.symm.trans h) nofun
    · exact Prod.Lex.right _ h

theorem phrasesFrom_afterEof (source : String) (blocks : List OpenBlock) (ts : List Token) :
    phrasesFrom source .afterEof blocks ts = [] := by
  rw [phrasesFrom.eq_def]
  rfl

theorem phrasesFrom_nil (source : String) (g : Grouping) (blocks : List OpenBlock) :
    phrasesFrom source g blocks [] = [] := by
  rw [phrasesFrom.eq_def]
  split <;> rfl

theorem phrasesFrom_cons (source : String) {g : Grouping} (hg : g ≠ .afterEof)
    (blocks : List OpenBlock) (t : Token) (ts : List Token) :
    phrasesFrom source g blocks (t :: ts) =
      (ofToken source g blocks t).phrase ::
        phrasesFrom source (ofToken source g blocks t).grouping (ofToken source g blocks t).blocks
          (if (ofToken source g blocks t).taken then ts else t :: ts) := by
  rw [phrasesFrom.eq_def, if_neg hg]

end Grouped

namespace Grouper

/-- The phrases that are still to be read when `ts` are all the tokens that are left. -/
def ahead (g : Grouper) (ts : List Token) : List Phrase :=
  g.pending.toList ++ Grouped.phrasesFrom (g.source.getD "") g.grouping g.blocks ts

inductive Parsed (g : Grouper) (source : String) (input : Cell Token) :
    Progress → Grouper → Cell Token → Prop where
  | pending (p : Phrase) (hp : g.pending = some p) :
      Parsed g source input .outputAvailable g input
  | ended (hp : g.pending = none) (he : g.grouping = .afterEof) : Parsed g source input .eof g input
  | starved (hp : g.pending = none) (he : g.grouping ≠ .afterEof) (hi : input = none) :
      Parsed g source input .inputNeeded g input
  | phrase (t : Token) (hp : g.pending = none) (he : g.grouping ≠ .afterEof)
      (hi : input = some t) (r : Grouped) (hr : r = .ofToken source g.grouping g.blocks t) :
      Parsed g source input .outputAvailable
        ⟨g.source, r.grouping, r.blocks, some r.phrase, t.start⟩ (if r.taken then none else input)

theorem parse_parsed {g : Grouper} {source : String} (input : Cell Token)
    (hs : g.source = some source) :
    ∃ progress g' input', g.parse input = .ok (progress, g', input') ∧
      Parsed g source input progress g' input' := by
  unfold parse
  rw [hs]
  dsimp only
  split
  · next hp =>
    obtain ⟨p, hp⟩ := Option.isSome_iff_exists.1 hp
    exact ⟨_, _, _, rfl, .pending p hp⟩
  · next hp =>
    have hp : g.pending = none := by simpa using hp
    split
    · next he => exact ⟨_, _, _, rfl, .ended hp he⟩
    · next he =>
      cases input with
      | none => exact ⟨_, _, _, rfl, .starved hp he rfl⟩
      | some t => exact ⟨_, _, _, rfl, hs ▸ .phrase t hp he rfl _ rfl⟩

theorem Parsed.source_eq {g g' : Grouper} {source : String} {input input' : Cell Token}
    {progress : Progress} (h : Parsed g source input progress g' input') :
    g'.source = g.source := by
  cases h <;> rfl

/-- A call for a phrase leaves the phrases to come as they are. -/
theorem Parsed.ahead_eq {g g' : Grouper} {source : String} {input input' : Cell Token}
    {progress : Progress} (h : Parsed g source input progress g' input')
    (hs : g.source = some source) (ts : List Token) :
    g'.ahead (input'.toList ++ ts) = g.ahead (input.toList ++ ts) := by
  cases h with
  | pending => rfl
  | ended => rfl
  | starved => rfl
  | phrase t hp he hi r hr =>
    subst hi hr
    unfold ahead
    rw [hs, hp]
    simp only [Option.toList_some, Option.toList_none, List.nil_append, List.cons_append,
      Option.getD_some]
    rw [Grouped.phrasesFrom_cons source he]
    split <;> rfl

def emptied (g : Grouper) : Grouper := { g with pending := none }

theorem ahead_eq_append (g : Grouper) (ts : List Token) :
    g.ahead ts = g.pending.toList ++ g.emptied.ahead ts := rfl

theorem Parsed.exists_read {g g' : Grouper} {source : String} {input input' : Cell Token}
    (h : Parsed g source input .outputAvailable g' input') :
    ∃ p, g'.pending = some p ∧ g'.read = .ok (p, g'.emptied) := by
  cases h with
  | pending p hp => exact ⟨p, hp, by unfold read; rw [hp]; rfl⟩
  | phrase => exact ⟨_, rfl, rfl⟩

theorem drain_none (fuel : Nat) {g : Grouper} {source : String} (out : Array Phrase)
    (hs : g.source = some source) (hp : g.pending = none) (hf : 0 < fuel) :
    ∃ progress, g.drain fuel none out = .ok (out, progress, g, none) := by
  obtain ⟨fuel, rfl⟩ := Nat.exists_eq_succ_of_ne_zero (Nat.ne_of_gt hf)
  obtain ⟨progress, g', input', hok, hparsed⟩ := parse_parsed none hs
  simp only [drain, hok, bind, Except.bind]
  cases hparsed with
  | pending p hpend => rw [hp] at hpend; cases hpend
  | ended => exact ⟨.eof, rfl⟩
  | starved => exact ⟨.inputNeeded, rfl⟩
  | phrase t hp he hi => cases hi

theorem drain_ahead {fuel : Nat} {g : Grouper} {source : String} {t : Token} (out : Array Phrase)
    (hs : g.source = some source) (hp : g.pending = none)
    (hf : pendingBoundaries g.grouping g.blocks + 2 ≤ fuel) :
    ∃ more progress g' input', g.drain fuel (some t) out = .ok (out ++ more, progress, g', input') ∧
      g'.source = some source ∧ g'.pending = none ∧
      ∀ ts, g.ahead (t :: ts) = more.toList ++ g'.ahead ts := by
  induction fuel generalizing g out with
  | zero => omega
  | succ fuel ih =>
    obtain ⟨progress, g₁, input₁, hok, hparsed⟩ := parse_parsed (some t) hs
    simp only [drain, hok, bind, Except.bind]
    cases hparsed with
    | pending p hpend => rw [hp] at hpend; cases hpend
    | ended hp' he =>
      refine ⟨#[], .eof, g, some t, by simp [pure, Except.pure], hs, hp, fun ts => ?_⟩
      unfold ahead
      rw [he, Grouped.phrasesFrom_afterEof, Grouped.phrasesFrom_afterEof]
      rfl
    | starved hp' he hi => cases hi
    | phrase t' hp' he hi r hr =>
      cases hi
      have hahead : ∀ ts, g.ahead (t :: ts) = r.phrase ::
          Grouped.phrasesFrom source r.grouping r.blocks (if r.taken then ts else t :: ts) := by
        intro ts
        unfold ahead
        rw [hs, hp, hr]
        exact Grouped.phrasesFrom_cons source he g.blocks t ts
      have hadv := Grouped.ofToken_advances source g.grouping g.blocks t
      rw [← hr] at hadv
      simp only [ne_eq, not_true_eq_false, if_false, read]
      cases ht : r.taken with
      | true =>
        simp only [ht, if_true] at hahead ⊢
        obtain ⟨progress, hd⟩ := drain_none fuel
          (g := ⟨g.source, r.grouping, r.blocks, none, t.start⟩) (out.push r.phrase) hs rfl (by omega)
        refine ⟨#[r.phrase], progress, ⟨g.source, r.grouping, r.blocks, none, t.start⟩, none, ?_, hs,
          rfl, fun ts => ?_⟩
        · rw [hd]
          simp
        · rw [hahead]
          unfold ahead
          rw [hs]
          rfl
      | false =>
        simp only [ht, if_false, Bool.false_eq_true] at hahead ⊢
        have hlt :
            pendingBoundaries r.grouping r.blocks < pendingBoundaries g.grouping g.blocks := by
          rcases hadv with h | h
          · exact absurd (ht.symm.trans h) nofun
          · exact h
        obtain ⟨more, progress, g', input', hd, hs', hp', ha⟩ :=
          ih (g := ⟨g.source, r.grouping, r.blocks, none, t.start⟩) (out.push r.phrase) hs rfl
            (Nat.le_of_lt_succ (Nat.lt_of_lt_of_le (Nat.add_lt_add_right hlt 2) hf))
        refine ⟨#[r.phrase] ++ more, progress, g', input', ?_, hs', hp', fun ts => ?_⟩
        · rw [hd]
          simp
        · have hmade : Grouper.ahead ⟨g.source, r.grouping, r.blocks, none, t.start⟩ (t :: ts) =
              Grouped.phrasesFrom source r.grouping r.blocks (t :: ts) := by
            unfold ahead
            rw [hs]
            rfl
          rw [hahead, ← hmade, ha ts]
          simp

theorem readAll_ahead {g : Grouper} {source : String} (t : Token) (hs : g.source = some source)
    (hp : g.pending = none) :
    ∃ more progress g' input', g.readAll (some t) = .ok (more, progress, g', input') ∧
      g'.source = some source ∧ g'.pending = none ∧
      ∀ ts, g.ahead (t :: ts) = more.toList ++ g'.ahead ts := by
  have hf : pendingBoundaries g.grouping g.blocks + 2 ≤ 2 * g.blocks.length + 5 := by
    unfold pendingBoundaries
    split <;> omega
  simpa [readAll] using drain_ahead (t := t) #[] hs hp hf

end Grouper

theorem foldlM_ahead (source : String) (ts : List Token) (out : Array Phrase) {g : Grouper}
    (hs : g.source = some source) (hp : g.pending = none) :
    ∃ g', ts.foldlM (fun (out, g) t => do
        let (more, _, g, _) ← g.readAll (some t)
        return (out ++ more, g)) ((out, g) : Array Phrase × Grouper) =
      (.ok (out ++ (g.ahead ts).toArray, g') : Except Misuse _) := by
  induction ts generalizing out g with
  | nil =>
    have ha : g.ahead [] = [] := by
      unfold Grouper.ahead
      rw [hp, Grouped.phrasesFrom_nil]
      rfl
    exact ⟨g, by simp [ha, pure, Except.pure]⟩
  | cons t ts ih =>
    obtain ⟨more, progress, g₁, input₁, hr, hs₁, hp₁, ha⟩ := Grouper.readAll_ahead t hs hp
    obtain ⟨g', hg'⟩ := ih (out ++ more) hs₁ hp₁
    refine ⟨g', ?_⟩
    rw [List.foldlM_cons]
    simp only [hr, bind, Except.bind, pure, Except.pure] at hg' ⊢
    have hmore : more ++ (g₁.ahead ts).toArray = (more.toList ++ g₁.ahead ts).toArray :=
      Array.ext' (by simp)
    rw [hg', ha ts, Array.append_assoc, hmore]

/-- The phrases of all tokens of a source are those that are ahead at the start. -/
theorem phrasesOf_eq (source : String) (ts : List Token) :
    phrasesOf source ts = .ok (Grouped.phrasesFrom source .statementSequence [] ts) := by
  obtain ⟨g', hg'⟩ := foldlM_ahead source ts #[]
    (g := { Grouper.new with source := some source }) rfl rfl
  unfold phrasesOf
  have hstart : Grouper.new.start source = .ok { Grouper.new with source := some source } := rfl
  rw [hstart]
  simp only [bind, Except.bind] at hg' ⊢
  rw [hg']
  simp [pure, Except.pure, Grouper.ahead, Grouper.new]

end TermStream
