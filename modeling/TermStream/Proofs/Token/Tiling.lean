import TermStream.Proofs.Token.Ahead

namespace TermStream

/-- The last element of the list ends it, and no other one does. -/
def EndsOnce {α : Type} (ends : α → Bool) : List α → Prop
  | [] => False
  | a :: as => if ends a then as = [] else EndsOnce ends as

theorem EndsOnce.exists_mem {α : Type} {ends : α → Bool} {as : List α} (h : EndsOnce ends as) :
    ∃ a ∈ as, ends a = true := by
  induction as with
  | nil => exact h.elim
  | cons a as ih =>
    rw [EndsOnce] at h
    split at h
    · next he => exact ⟨a, List.mem_cons_self, he⟩
    · next he =>
      obtain ⟨b, hb, he⟩ := ih h
      exact ⟨b, List.mem_cons_of_mem _ hb, he⟩

theorem EndsOnce.concat {α : Type} {ends : α → Bool} {as : List α} {b : α}
    (h : ∀ a ∈ as, ends a = false) (hb : ends b = true) : EndsOnce ends (as ++ [b]) := by
  induction as with
  | nil => simp [EndsOnce, hb]
  | cons a as ih =>
    rw [List.cons_append, EndsOnce, h a List.mem_cons_self]
    exact ih fun a ha => h a (List.mem_cons_of_mem _ ha)

theorem Quotation.literal_kind (quote : Char) (cs : List Char) :
    (literal quote cs).key.kind = .string ∨ (literal quote cs).key.kind = .multilineString := by
  unfold literal
  split
  · exact .inr rfl
  · exact .inl rfl

theorem Number.isNumber_suffixed {kind : TokenKind} (s : Scan) (h : kind.isNumber = true) :
    (suffixed kind s).key.kind.isNumber = true := by
  unfold suffixed
  split
  · split
    · unfold TokenKey.withSuffix
      cases kind <;> first | rfl | cases h
    · exact h
  · exact h

theorem Number.isNumber_literal (first : Char) (cs : List Char) :
    (literal first cs).key.kind.isNumber = true := by
  unfold literal
  dsimp only
  split
  · exact isNumber_suffixed _ rfl
  · apply isNumber_suffixed
    split <;> rfl

theorem TokenKind.ne_of_isNumber {k k' : TokenKind} (h : k.isNumber = true)
    (h' : k'.isNumber = false) : k ≠ k' := by
  rintro rfl
  cases h.symm.trans h'

namespace Lexeme

theorem word_kind_ne_eof (first : Char) (cs : List Char) : (word first cs).key.kind ≠ .eof := by
  unfold word
  split
  · next q rest hd =>
    split
    · rcases Quotation.literal_kind q rest with hk | hk <;>
        simp [TokenKey.withLead, hk]
    · exact nofun
  · exact nofun

theorem recognize_kind_ne_eof (atStart docComments : Bool) (first : Char) (cs : List Char) :
    (recognize atStart docComments first cs).key.kind ≠ .eof := by
  unfold recognize
  split
  · exact nofun
  · exact nofun
  · exact nofun
  · exact nofun
  · exact nofun
  · exact nofun
  · exact nofun
  · unfold lineComment
    dsimp only
    split <;> split <;> exact nofun
  · exact nofun
  · split
    · exact nofun
    · split
      · rcases Quotation.literal_kind first cs with hk | hk <;> simp [hk]
      · split
        · exact nofun
        · split
          · exact nofun
          · split
            · exact TokenKind.ne_of_isNumber (Number.isNumber_literal first cs) rfl
            · split
              · exact word_kind_ne_eof first cs
              · split <;> exact nofun

end Lexeme

namespace Lexer

theorem lexemeWithin_kind_ne_eof {l : Lexer} {limit : Nat} {final : Bool} {first : Char}
    {cs : List Char} {found : Extent} (h : l.lexemeWithin limit final first cs = some found) :
    found.key.kind ≠ .eof := by
  have hr := Lexeme.recognize_kind_ne_eof l.atStart l.docComments first (upTo (limit - 1) cs)
  unfold lexemeWithin at h
  dsimp only at h
  split at h
  · cases h; exact hr
  · split at h
    · cases h; exact hr
    · split at h
      · cases h; exact hr
      · cases h

theorem nextLexeme_kind_ne_eof {l : Lexer} {final : Bool} {first : Char} {cs : List Char}
    {found : Extent} (h : l.nextLexeme final first cs = some found) : found.key.kind ≠ .eof := by
  unfold nextLexeme at h
  split at h
  · cases h
  · next e he =>
    split at h
    · cases h
      exact lexemeWithin_kind_ne_eof he
    · exact lexemeWithin_kind_ne_eof h

theorem made_isEof {l : Lexer} {source : String} {final : Bool} {first : Char} {rest : List Char}
    {found : Extent} (hf : l.nextLexeme final first rest = some found) (text : List Char) :
    (l.made source found text).isEof = false := by
  have hk := nextLexeme_kind_ne_eof hf
  simpa [Token.isEof, Token.kind, made] using hk

/-- The tokens to come are cut from the text that is left and end with the end of the input. -/
theorem ahead_tiles {l : Lexer} {source : String} (cs : List Char) (hs : l.source = some source)
    (hp : l.pending = none) (he : l.ended = false) :
    (l.ahead cs).flatMap (fun t => t.text.toList) = cs ∧ EndsOnce Token.isEof (l.ahead cs) := by
  refine ahead_induction (motive := fun _ cs ts =>
    ts.flatMap (fun t => t.text.toList) = cs ∧ EndsOnce Token.isEof ts) ?_ ?_ cs hs hp he
  · exact fun l => ⟨rfl, rfl⟩
  · rintro l first rest found text ts hf rfl ⟨htext, hends⟩
    refine ⟨?_, ?_⟩
    · rw [List.flatMap_cons, htext]
      change (String.ofList ((first :: rest).take found.length)).toList ++ _ = _
      rw [String.toList_ofList, List.take_append_drop]
    · rw [EndsOnce, made_isEof hf]
      exact hends

end Lexer

theorem tokens_endsOnce {source text : String} {settings : Settings} {ts : List Token}
    (h : tokens source text settings = .ok ts) : EndsOnce Token.isEof ts := by
  rw [tokens_eq_ahead] at h
  cases h
  exact (Lexer.ahead_tiles text.toList rfl rfl rfl).2

end TermStream
