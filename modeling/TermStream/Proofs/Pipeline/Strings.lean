import TermStream.Proofs.Pipeline.Dialogue
import TermStream.Proofs.Pipeline.Runs

namespace TermStream.Pipeline

open Dialogue

/-- Every string token has what a document takes out of it between its quotes. At any moment before
its statements begin a document has stored nothing but the last strings that its declaration has
accepted, and it asks for its grammar with them. -/
theorem strings_taken (source : String) (settings : Settings) :
    (∀ text, ∃ ts, tokens source text settings = .ok ts ∧
      ∀ t ∈ ts, t.kind.isString = true →
        ∃ body, t.stringBody? = some body ∧ t.Yields body) ∧
    ∃ p, new source settings = .ok p ∧ ∀ calls : List Dialogue.Call,
      (∀ c ∈ calls, c.Gives Grammar.Built) →
        let d := (Dialogue.start p).performAll calls
        let queued := d.pipeline.interpreter.workspace.queue.toList
        (∀ f result, ⟨.document f, result⟩ ∈ d.pipeline.interpreter.stack → f.Opened ∨
          ∃ strings, Accepts (d.terms ++ queued) strings ∧ (∀ s ∈ strings, s.2.Taken) ∧
            f.Remembers strings) ∧
        ∀ r, d.pipeline.request? = some r →
          ∃ strings, Preface d.terms strings ∧ (∀ s ∈ strings, s.2.Taken) ∧
            r = referenceOf strings := by
  refine ⟨fun text => ?_, ?_⟩
  · refine ⟨_, tokens_eq_ahead source text settings, fun t ht hs => ?_⟩
    exact (Lexer.ahead_quoted text.toList rfl rfl rfl t ht).exists_yields hs
  · obtain ⟨p, hp, hheld⟩ := exists_held Grammar.Built source settings
    refine ⟨p, hp, fun calls hc => ?_⟩
    have hcalls := hheld.performAll (fun _ hg => hg) substitute_built hc
    generalize (Dialogue.start p).performAll calls = d at hcalls
    refine ⟨fun f result hf => ?_, fun r hr => ?_⟩
    · refine (hcalls.holds.handshake.exists_accepts hf).imp_right ?_
      rintro ⟨strings, hremembers, haccepts⟩
      refine ⟨strings, haccepts, fun s hs => ?_, hremembers⟩
      obtain ⟨hstring, t, ht, hphrase⟩ := haccepts.exists_term hs
      exact (hcalls.holds.quoted ht hphrase).taken hstring
    · obtain ⟨-, strings, hpreface, href, hstrings⟩ := hcalls.exists_strings hr
      exact ⟨strings, hpreface, hstrings, href⟩

/-- The calls that read a declaration with a prefixed public id, and a system id in triple quotes
that does not end. -/
def openCalls : List Dialogue.Call :=
  [.push "doctype public u\"p\" \"\"\"s\"".toList, .finish] ++ reading 15 ++ [.parse 40]

theorem strings_taken_open :
    (∀ c ∈ openCalls, c.Gives Grammar.Built) ∧
    ∃ p, new "in" .standard = .ok p ∧
      let d := (Dialogue.start p).performAll openCalls
      d.pipeline.request? = some ⟨some "p", some "s\""⟩ ∧
        ∃ strings, Preface d.terms strings ∧ (∀ s ∈ strings, s.2.Taken) ∧
          ⟨some "p", some "s\""⟩ = referenceOf strings := by
  have hgives : ∀ c ∈ openCalls, c.Gives Grammar.Built := by
    refine List.forall_mem_append.2 ⟨List.forall_mem_append.2 ⟨?_, gives_reading _ 15⟩,
      List.forall_mem_singleton.2 trivial⟩
    exact List.forall_mem_cons.2 ⟨trivial, List.forall_mem_singleton.2 trivial⟩
  obtain ⟨-, p, hp, hall⟩ := strings_taken "in" .standard
  have hread : ((new "in" .standard).toOption.map fun p =>
      ((Dialogue.start p).performAll openCalls).pipeline.request?) =
        some (some ⟨some "p", some "s\""⟩) := by decide +kernel
  rw [hp] at hread
  have hrequest := Option.some.inj hread
  exact ⟨hgives, p, hp, hrequest, (hall _ hgives).2 _ hrequest⟩

/-- A string that ends with an escaped quote at the end of the input has no closing quotes, and the
document takes its last character for them. -/
theorem strings_not_verbatim :
    ((tokens "in" "\"abc\\\"" .standard).toOption.map fun ts =>
      (ts.filter fun t => t.kind.isString).map fun t => (t.text, t.isUnterminated, t.stringBody?)) =
        some [("\"abc\\\"", true, some "abc\\")] ∧
      ((run 200 "in" "doctype \"abc\\\"" .standard none .standard).toOption.map
        Transcript.requests) = some [⟨none, some "abc\\"⟩] := by
  have hpieces : Text.pieces Settings.standard.chunkSize "doctype \"abc\\\"".toList =
      ["doctype \"abc\\\"".toList] := Text.pieces_of_cut rfl
  refine ⟨by decide +kernel, ?_⟩
  rw [run, hpieces]
  decide +kernel

end TermStream.Pipeline
