import TermStream.Proofs.Token.Suffix

namespace TermStream

theorem ErrorCode.problem?_ofProblem (p : Problem) : (ofProblem p).problem? = some p := by
  cases p <;> decide

/-- The problems that a scan may find. Whether a token is too long is not for its scan to tell. -/
def Problem.IsFound (p : Problem) : Prop := p.layer = .lexical ∧ p ≠ .tooManyCharacters

instance : DecidablePred Problem.IsFound := fun _ => instDecidableAnd

def Scan.Lexical (s : Scan) : Prop := ∀ f ∈ s.findings, f.problem.IsFound

namespace Scan

variable {s : Scan} {rest cs : List Char}

theorem lexical_stopped : (stopped rest).Lexical := List.forall_mem_nil _

theorem lexical_looked : (looked rest).Lexical := List.forall_mem_nil _

theorem lexical_run (p : Char → Bool) : (run p cs).Lexical := lexical_looked

theorem Lexical.found (h : s.Lexical) {p : Problem} (hp : p.IsFound)
    (args : List String) : (s.found p args).Lexical := by
  intro f hf
  rcases List.mem_append.1 hf with hf | hf
  · exact h f hf
  · obtain rfl := List.mem_singleton.1 hf
    exact hp

theorem Lexical.append {t u : Scan} (hs : s.Lexical) (ht : t.Lexical)
    (hu : u.findings = s.findings ++ t.findings) : u.Lexical := by
  intro f hf
  rw [hu] at hf
  exact (List.mem_append.1 hf).elim (hs f) (ht f)

end Scan

open Scan

namespace Quotation

theorem lexical_hexDigits (n : Nat) (cs : List Char) : (hexDigits n cs).Lexical := by
  fun_induction hexDigits n cs with
  | case1 cs => exact lexical_stopped
  | case2 n => exact lexical_looked.found (by decide) _
  | case3 n c cs hc ih => exact ih
  | case4 n c cs hc => exact lexical_stopped.found (by decide) _

theorem lexical_codePoint (cs : List Char) : (codePoint cs).Lexical := by
  unfold codePoint
  split
  · dsimp only
    split
    · exact lexical_stopped
    · exact lexical_looked.found (by decide) _
  · exact lexical_looked.found (by decide) _

theorem lexical_escape (cs : List Char) : (escape cs).Lexical := by
  unfold escape
  split
  · exact lexical_looked
  · split
    · exact lexical_stopped
    · split
      · exact lexical_hexDigits _ _
      · split
        · exact lexical_codePoint _
        · split
          · exact lexical_stopped.found (by decide) _
          · exact lexical_stopped.found (by decide) _

theorem lexical_body (quote : Char) (triple : Bool) (cs : List Char) :
    (body quote triple cs).Lexical := by
  fun_induction body quote triple cs with
  | case1 => exact lexical_looked.found (by decide) _
  | case2 c cs hc => exact lexical_stopped.found (by decide) _
  | case3 cs hc hle e b ih => exact (lexical_escape cs).append ih rfl
  | case4 => exact lexical_stopped
  | case5 => exact lexical_stopped
  | case6 => assumption
  | case7 => assumption

theorem lexical_literal (quote : Char) (cs : List Char) : (literal quote cs).scan.Lexical := by
  unfold literal
  split
  · exact lexical_body _ _ _
  · exact lexical_body quote false cs

end Quotation

namespace Number

theorem lexical_radixFindings (base digits : List Char) :
    ∀ f ∈ radixFindings base digits, f.problem.IsFound := by
  unfold radixFindings
  intro f hf
  rcases List.mem_append.1 hf with hf | hf
  · split at hf
    · obtain rfl := List.mem_singleton.1 hf
      exact (by decide : Problem.IsFound .invalidRadix)
    · split at hf
      · obtain rfl := List.mem_singleton.1 hf
        exact (by decide : Problem.IsFound .digitOutOfRadix)
      · cases hf
  · split at hf
    · obtain rfl := List.mem_singleton.1 hf
      decide
    · cases hf

theorem lexical_radixPart (base cs : List Char) : (radixPart base cs).Lexical := by
  have hdigits : Lexical ⟨[], false, radixFindings base
      ((cs.takeWhile isRadixPart).filter (· != '_'))⟩ := lexical_radixFindings _ _
  unfold radixPart
  dsimp only
  split
  · exact hdigits.append lexical_stopped rfl
  · exact hdigits.append (lexical_looked.found (by decide) _) rfl

theorem lexical_fraction (cs : List Char) : (fraction cs).2.Lexical := by
  unfold fraction
  split
  · exact List.forall_mem_nil _
  · split
    · exact lexical_run _
    · exact lexical_stopped
  · exact lexical_looked

theorem lexical_exponent (cs : List Char) : (exponent cs).2.Lexical := by
  unfold exponent
  split
  · exact lexical_looked
  · split
    · split
      · exact List.forall_mem_nil _
      · split
        · exact lexical_run _
        · split
          · split
            · split
              · exact lexical_run _
              · exact lexical_stopped.found (by decide) _
            · exact lexical_looked.found (by decide) _
          · exact lexical_stopped
    · exact lexical_stopped

theorem lexical_suffixed (kind : TokenKind) {s : Scan} (h : s.Lexical) :
    (suffixed kind s).scan.Lexical := by
  unfold suffixed
  split
  · split
    · exact h.append (lexical_run _) rfl
    · exact h
  · exact h

theorem lexical_literal (first : Char) (cs : List Char) : (literal first cs).scan.Lexical := by
  unfold literal
  dsimp only
  split
  · exact lexical_suffixed _ (lexical_radixPart _ _)
  · exact lexical_suffixed _ ((lexical_fraction _).append (lexical_exponent _) rfl)

end Number

namespace Lexeme

theorem lexical_blockComment (cs : List Char) : (blockComment cs).Lexical := by
  fun_induction blockComment cs with
  | case1 => exact lexical_looked.found (by decide) _
  | case2 cs => exact lexical_stopped
  | case3 c cs hc ih => exact ih

theorem lexical_graphics (cs : List Char) : (graphics cs).Lexical := by
  fun_induction graphics cs with
  | case1 => exact lexical_looked
  | case2 c cs hc ih => exact ih
  | case3 c cs hc => exact lexical_stopped

theorem lexical_word (first : Char) (cs : List Char) : (word first cs).scan.Lexical := by
  unfold word
  split
  · split
    · exact Quotation.lexical_literal _ _
    · exact lexical_stopped
  · exact lexical_looked

theorem lexical_recognize (atStart docComments : Bool) (first : Char) (cs : List Char) :
    (recognize atStart docComments first cs).scan.Lexical := by
  unfold recognize
  split
  · exact lexical_stopped
  · exact lexical_stopped
  · exact lexical_looked
  · exact lexical_stopped
  · exact lexical_stopped
  · exact lexical_stopped
  · exact lexical_stopped
  · exact lexical_run _
  · exact lexical_blockComment _
  · split
    · exact lexical_stopped
    · split
      · exact Quotation.lexical_literal _ _
      · split
        · exact lexical_run _
        · split
          · exact lexical_graphics _
          · split
            · exact Number.lexical_literal _ _
            · split
              · exact lexical_word _ _
              · split
                · exact lexical_run _
                · exact lexical_stopped.found (by decide) _

end Lexeme

end TermStream
