import Mathlib.Data.List.Basic
import TermStream.Proofs.Pipeline.Completion
import TermStream.Proofs.Pipeline.Conservation
import TermStream.Proofs.Standard.Simulation

namespace TermStream

namespace Descent

inductive Made : Term → Prop where
  | wrapped (kind : TermKind) (role : Role) (p : Phrase) : Made (wrapped kind role p)
  | before (kind : TermKind) (p : Phrase) : Made (before kind p)
  | passed (p : Phrase) : Made (passed p)

theorem Made.ownErrors_eq {t : Term} (h : Made t) : t.ownErrors = .nil := by
  cases h <;> rfl

open List (forall_mem_append forall_mem_cons forall_mem_nil forall_mem_singleton)

theorem passed_made (ps : List Phrase) : ∀ t ∈ ps.map passed, Made t := by
  intro t ht
  obtain ⟨p, -, rfl⟩ := List.mem_map.1 ht
  exact .passed p

theorem value_made (p : Phrase) : Made (value p) := by
  unfold value
  split <;> exact .wrapped _ _ p

theorem element_made {p : Phrase} {ps : List Phrase} (hs : ∀ t ∈ (sequence ps).terms, Made t) :
    ∀ t ∈ (element p ps).terms, Made t := by
  rw [element]
  split
  · generalize sequence ps = inner at hs ⊢
    obtain ⟨inner, rest, hle⟩ := inner
    have hstart : ∀ t ∈ wrapped .blockStart .separator p :: inner, Made t :=
      forall_mem_cons.2 ⟨.wrapped _ _ p, hs⟩
    cases rest with
    | nil => exact hstart
    | cons q rest =>
      dsimp only
      split
      · exact forall_mem_append.2 ⟨hstart, forall_mem_singleton.2 (.wrapped _ _ q)⟩
      · exact forall_mem_append.2 ⟨hstart, forall_mem_singleton.2 (.before _ q)⟩
  · exact forall_mem_singleton.2 (value_made p)

theorem body_made {ps : List Phrase}
    (hs : ∀ qs : List Phrase, qs.length < ps.length → ∀ t ∈ (sequence qs).terms, Made t) :
    ∀ t ∈ (body ps).terms, Made t := by
  induction hn : ps.length using Nat.strongRecOn generalizing ps with
  | ind n ih =>
    subst hn
    cases ps with
    | nil =>
      rw [body]
      exact forall_mem_nil _
    | cons p ps =>
      rw [body]
      have hps : ∀ t ∈ (body ps).terms, Made t :=
        ih ps.length (Nat.lt_succ_self _) (fun qs hq => hs qs (Nat.lt_succ_of_lt hq)) rfl
      cases hk : p.kind with
      | ignorable => exact forall_mem_cons.2 ⟨.passed p, hps⟩
      | significant | startBlock =>
        have hle := (element p ps).rest_le
        exact forall_mem_append.2 ⟨element_made (hs ps (Nat.lt_succ_self _)),
          ih _ (Nat.lt_succ_of_le hle)
            (fun qs hq => hs qs (Nat.lt_succ_of_lt (Nat.lt_of_lt_of_le hq hle))) rfl⟩
      | softStatementEnd | statementEnd => exact forall_mem_singleton.2 (.wrapped _ _ p)
      | control | endBlock | eof => exact forall_mem_singleton.2 (.before _ p)

theorem statement_made {leading : List Phrase} {p : Phrase} {ps : List Phrase}
    (hs : ∀ qs : List Phrase, qs.length ≤ ps.length → ∀ t ∈ (sequence qs).terms, Made t) :
    ∀ t ∈ (statement leading p ps).terms, Made t := by
  rw [statement]
  have hle := (element p ps).rest_le
  have hstart : ∀ t ∈ before .statementStart (leading.headD p) :: leading.map passed, Made t :=
    forall_mem_cons.2 ⟨.before _ _, passed_made leading⟩
  exact forall_mem_append.2
    ⟨forall_mem_append.2 ⟨hstart, element_made (hs ps (Nat.le_refl _))⟩,
      body_made fun qs hq => hs qs (Nat.le_trans (Nat.le_of_lt hq) hle)⟩

theorem sequence_made (ps : List Phrase) : ∀ t ∈ (sequence ps).terms, Made t := by
  induction hn : ps.length using Nat.strongRecOn generalizing ps with
  | ind n ih =>
    subst hn
    cases ps with
    | nil =>
      rw [sequence]
      exact forall_mem_nil _
    | cons p ps =>
      have hs : ∀ qs : List Phrase, qs.length ≤ ps.length → ∀ t ∈ (sequence qs).terms, Made t :=
        fun qs hq => ih qs.length (Nat.lt_succ_of_le hq) qs rfl
      have hstatement : ∀ (leading : List Phrase) (q : Phrase) (qs : List Phrase),
          qs.length ≤ ps.length → ∀ t ∈ (statement leading q qs).terms ++
            (sequence (statement leading q qs).rest).terms, Made t := fun leading q qs hq =>
        forall_mem_append.2 ⟨statement_made fun rs hr => hs rs (Nat.le_trans hr hq),
          hs _ (Nat.le_trans (statement leading q qs).rest_le hq)⟩
      rw [sequence]
      cases hk : p.kind with
      | endBlock | eof => exact forall_mem_nil _
      | control => exact forall_mem_cons.2 ⟨.wrapped _ _ p, hs ps (Nat.le_refl _)⟩
      | statementEnd =>
        refine forall_mem_append.2 ⟨?_, hs ps (Nat.le_refl _)⟩
        split
        · exact forall_mem_singleton.2 (.wrapped _ _ p)
        · exact forall_mem_nil _
      | significant | startBlock => exact hstatement [] p ps (Nat.le_refl _)
      | ignorable | softStatementEnd =>
        simp only
        split
        · exact passed_made _
        · next q rest hdrop =>
          have hlt := length_lt_of_dropWhile hdrop
          split
          · exact hstatement _ q rest (Nat.le_of_lt hlt)
          · exact forall_mem_append.2 ⟨passed_made _, hs (q :: rest) hlt⟩

theorem document_made (ps : List Phrase) : ∀ t ∈ document ps, Made t := by
  induction hn : ps.length using Nat.strongRecOn generalizing ps with
  | ind n ih =>
    subst hn
    have hs := sequence_made ps
    rw [document]
    generalize sequence ps = statements at hs ⊢
    obtain ⟨terms, rest, hle⟩ := statements
    cases rest with
    | nil => exact hs
    | cons p rest =>
      dsimp only
      split
      · exact forall_mem_append.2 ⟨hs, forall_mem_singleton.2 (.wrapped _ _ p)⟩
      · exact forall_mem_append.2
          ⟨hs, forall_mem_cons.2 ⟨.wrapped _ _ p, ih rest.length hle rest rfl⟩⟩

end Descent

/-- The errors of a phrase in front of those of its token. -/
def Phrase.allErrors (p : Phrase) : List (Report × ErrorChain) := p.errors.nodes ++ p.lexicalErrors

theorem Descent.Made.errors_eq {t : Term} (h : Made t) :
    t.errors = t.phrase.toList.flatMap Phrase.allErrors := by
  rw [t.errors_eq, h.ownErrors_eq, Term.phraseErrors, Term.lexicalErrors]
  cases t.phrase <;> simp [ErrorChain.nodes, Phrase.allErrors]

theorem Grouped.Tiling.allErrors_eq_nil {ts : List Token} {ps : List Phrase} {p : Phrase}
    (h : Tiling ts ps) (hp : p ∈ ps) (hk : p.kind = .statementEnd) (hn : p.hasToken = false) :
    p.allErrors = [] := by
  have htoken : p.token = none := Option.isNone_iff_eq_none.1 (Option.isSome_eq_false_iff.1 hn)
  rw [Phrase.allErrors, Phrase.lexicalErrors, h.clean p hp hk hn, htoken]
  rfl

namespace Pipeline

variable {resolver : Resolver}

/-- A run of a script with enough steps ends, and what has been read at its end are the terms of the
descent. They have the errors of all phrases in their order, each of them once. -/
theorem script_run (source text : String) (settings : Settings)
    (hb : ∀ r g, resolver r = some g → g.Built) :
    ∃ ts ps, tokens source text settings = .ok ts ∧ phrasesOf source ts = .ok ps ∧
      Grouped.Tiling ts ps ∧
      (∃ n, ∀ fuel ≥ n, ∃ transcript,
        run fuel source text settings (some (.standard true)) resolver = .ok transcript) ∧
      ∀ fuel transcript,
        run fuel source text settings (some (.standard true)) resolver = .ok transcript →
          transcript.terms.toList = Descent.document ps ∧
            transcript.terms.toList.flatMap Term.errors = ps.flatMap Phrase.allErrors := by
  have hg : ∀ g, some (Grammar.standard true) = some g → g.Built := fun g h =>
    Option.some.inj h ▸ Grammar.built_standard true
  have ha : ∀ r, (answer source resolver r).Built := answer_built hb
  obtain ⟨t, p, ts, ps, ht, hp, hts, hps, hsound, hfollows, -, htiling⟩ :=
    exists_open source text settings resolver hg
  obtain ⟨c, hc, hshows⟩ := Course.goes_start ha ht hsound
  obtain ⟨e, hce, he⟩ := Course.document_goes ha ps [] c hshows
  obtain ⟨d, n, hd, hrests, hterms⟩ := (hc.trans hce).exists_end ha he
  obtain ⟨hends, hsame⟩ := run_ends hb hp hfollows hd hrests
  refine ⟨ts, ps, hts, hps, htiling, hends, fun fuel transcript hrun => ?_⟩
  obtain ⟨taken, htaken, hkept⟩ :=
    ((accounts_start ps ht).reaches hsound ha hd).exists_taken (hsound.reaches ha hd) hrests
  have hterms : d.terms = Descent.document ps := hterms
  rw [hsame fuel transcript hrun]
  refine ⟨hterms, ?_⟩
  have herrors : ∀ t ∈ d.terms, t.errors = t.phrase.toList.flatMap Phrase.allErrors :=
    fun t ht => (Descent.document_made ps t (hterms ▸ ht)).errors_eq
  rw [List.flatMap_congr herrors]
  exact terms_carry htaken hkept fun p hp hk hn => htiling.allErrors_eq_nil hp hk hn

end Pipeline

end TermStream
