import TermStream.Proofs.Pipeline.Readings

namespace TermStream.Pipeline

/-- The terms of a whole source in three passes, of which the last makes at most `fuel` calls of at
most `fuel` steps, and how that pass has ended. -/
def passes (fuel : Nat) (source text : String) (settings : Settings) (grammar : Option Grammar)
    (resolver : Resolver) : Except Misuse (Except Halt Progress × List Term) := do
  let ts ← tokens source text settings
  let ps ← phrasesOf source ts
  let t ← openInterpreter source grammar
  let (result, c) := Course.translate (answer source resolver) fuel fuel ⟨t, none, ps, []⟩
  return (result, c.terms)

/-- However a source is pushed and whatever calls are made between, the terms that have been read
are at any moment the first of those that the three passes come to, and when the end is reported
they are all of them. The passes never fail; with a grammar that goes around in circles they do not
end. -/
theorem streaming_eq_passes (source text : String) (settings : Settings) (grammar : Option Grammar)
    (resolver : Resolver) (calls : List Call) (hg : ∀ g, grammar = some g → g.Built)
    (hb : ∀ r g, resolver r = some g → g.Built) (hc : Schedule text.toList calls) :
    ∃ p, openPipeline source settings grammar = .ok p ∧
      let r := Reading.performAll resolver ⟨p, []⟩ calls
      let whole := fun fuel => passes fuel source text settings grammar resolver
      (∀ fuel, ∃ result terms, whole fuel = .ok (result, terms) ∧
        (result = .ok .eof ∨ result = .error .unfinished)) ∧
      (∃ n, ∀ fuel ≥ n, ∃ result terms, whole fuel = .ok (result, terms) ∧ r.terms <+: terms) ∧
      (∀ fuel terms, whole fuel = .ok (.ok .eof, terms) → r.terms <+: terms) ∧
      ∀ steps, (r.pipeline.parse steps).1 = .ok .eof →
        (∃ n, ∀ fuel ≥ n, whole fuel = .ok (.ok .eof, r.terms)) ∧
        ∀ fuel terms, whole fuel = .ok (.ok .eof, terms) → r.terms = terms := by
  obtain ⟨t, p, ts, ps, ht, hp, htokens, hphrases, hsound, hfollows, -, -⟩ :=
    exists_open source text settings resolver hg
  refine ⟨p, hp, ?_⟩
  intro r whole
  obtain ⟨rest, hr⟩ := hfollows.performAll hb hc
  obtain ⟨m, hm⟩ := hr.reached
  let start : Course := ⟨t, none, ps, []⟩
  let pass := fun fuel => Course.translate (answer source resolver) fuel fuel start
  have hwhole : ∀ fuel, whole fuel = .ok ((pass fuel).1, (pass fuel).2.terms) := by
    intro fuel
    simp only [whole, passes, htokens, hphrases, ht, bind, Except.bind]
    rfl
  have hworks : ∀ fuel, start.Works (answer source resolver) 0 fuel (pass fuel).1 (pass fuel).2 ∧
      ∀ progress, (pass fuel).1 = .ok progress → progress = .eof := fun fuel =>
    Course.translate_works hsound (answer_built hb) (.refl _ _) (Nat.le_refl fuel)
  refine ⟨?_, ⟨m, ?_⟩, ?_, ?_⟩
  · intro fuel
    obtain ⟨hw, hn⟩ := hworks fuel
    refine ⟨_, _, hwhole fuel, ?_⟩
    generalize (pass fuel).1 = result at hw hn ⊢
    cases hw with
    | ended m' hle hr hd hp => exact .inl (congrArg _ (hn _ rfl))
    | unfinished m' hle hr hd => exact .inr rfl
  · intro fuel hle
    obtain ⟨hw, hn⟩ := hworks fuel
    exact ⟨_, _, hwhole fuel, hw.terms_prefix hn hm (.inl hle)⟩
  · intro fuel terms he
    obtain ⟨hw, hn⟩ := hworks fuel
    obtain ⟨hresult, rfl⟩ := Prod.mk.inj (Except.ok.inj ((hwhole fuel).symm.trans he))
    exact hw.terms_prefix hn hm (.inr ⟨_, hresult⟩)
  · intro steps he
    obtain ⟨hlast, hrests⟩ := hr.work (p := r.pipeline) steps steps hb
    obtain ⟨m', hm'⟩ := hlast.reached
    refine ⟨⟨m' + 1, fun fuel hle => ?_⟩, fun fuel terms he' => ?_⟩
    · obtain ⟨hw, hn⟩ := hworks fuel
      obtain ⟨hresult, hterms⟩ := hw.ends hn hm' (hrests he) (.inl hle)
      rw [hwhole, hresult, hterms]
      rfl
    · obtain ⟨hw, hn⟩ := hworks fuel
      obtain ⟨hresult, rfl⟩ := Prod.mk.inj (Except.ok.inj ((hwhole fuel).symm.trans he'))
      exact (hw.ends hn hm' (hrests he) (.inr ⟨_, hresult⟩)).2.symm

/-- A word that is pushed in two parts, in a document that asks for its grammar before the text is
complete. -/
theorem streaming_eq_passes_split :
    let calls : List Call := [.push ['a'], .parse 30, .push ['b', ';'], .parse 30, .resolve, .parse 30,
      .read, .parse 30, .read, .parse 30, .read, .finish, .parse 30, .read, .parse 30, .read]
    (∀ r g, Resolver.standard r = some g → g.Built) ∧ Schedule "ab;".toList calls ∧
    ∃ p, openPipeline "in" .standard none = .ok p ∧
      ((p.push ['a']).parse 30).1 = .ok .inputNeeded ∧
      let r := Reading.performAll .standard ⟨p, []⟩ calls
      (r.pipeline.parse 30).1 = .ok .eof ∧ r.terms.length = 5 ∧
      ∃ n, ∀ fuel ≥ n,
        passes fuel "in" "ab;" .standard none .standard = .ok (.ok .eof, r.terms) := by
  intro calls
  have hc : Schedule "ab;".toList calls := ⟨['b', ';'], rfl, [], rfl, rfl, trivial⟩
  obtain ⟨p, hp, -, -, -, h⟩ :=
    streaming_eq_passes "in" "ab;" .standard none .standard calls nofun standard_built hc
  have hwaits : ((p.push ['a']).parse 30).1 = .ok .inputNeeded := by
    cases hp
    rfl
  have hread : let r := Reading.performAll .standard ⟨p, []⟩ calls
      (r.pipeline.parse 30).1.toOption = some .eof ∧ r.terms.length = 5 := by
    cases hp
    decide +kernel
  refine ⟨standard_built, hc, p, hp, hwaits, ?_⟩
  intro r
  obtain ⟨hlast, hlength⟩ := hread
  change (r.pipeline.parse 30).1.toOption = some .eof at hlast
  have heof : (r.pipeline.parse 30).1 = .ok .eof := by
    cases hr : (r.pipeline.parse 30).1 with
    | error e =>
      rw [hr] at hlast
      cases hlast
    | ok progress =>
      rw [hr] at hlast
      exact congrArg Except.ok (Option.some.inj hlast)
  exact ⟨heof, hlength, (h 30 heof).1⟩

end TermStream.Pipeline
