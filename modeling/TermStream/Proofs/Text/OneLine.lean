import TermStream.Term

namespace TermStream

namespace Text

/-- Whether no line ends inside a text. -/
def OneLine (cs : List Char) : Prop := ∀ c ∈ cs, c ≠ '\n' ∧ c ≠ '\r'

instance (cs : List Char) : Decidable (OneLine cs) :=
  List.decidableBAll (fun c => c ≠ '\n' ∧ c ≠ '\r') cs

theorem oneLine_append {front back : List Char} :
    OneLine (front ++ back) ↔ OneLine front ∧ OneLine back :=
  List.forall_mem_append

theorem digitChar_oneLine (d : Nat) : OneLine [d.digitChar] := by
  have hd : d.digitChar ≠ '\n' ∧ d.digitChar ≠ '\r' := by
    constructor
    · grind [Nat.digitChar]
    · grind [Nat.digitChar]
  exact List.forall_mem_singleton.2 hd

theorem toDigits_oneLine {base : Nat} (hb : 1 < base) (n : Nat) :
    OneLine (Nat.toDigits base n) := by
  induction n using Nat.strongRecOn with
  | ind n ih =>
    rw [Nat.toDigits_eq_if hb]
    split
    · exact digitChar_oneLine n
    · next hn =>
      apply oneLine_append.2
      constructor
      · apply ih
        apply Nat.div_lt_self _ hb
        omega
      · exact digitChar_oneLine _

theorem toString_oneLine (n : Nat) : OneLine (toString n).toList := by
  have hdigits : (toString n).toList = Nat.toDigits 10 n := Nat.toList_repr
  rw [hdigits]
  exact toDigits_oneLine (by decide) n

theorem codePointEscape_oneLine (c : Char) : OneLine (codePointEscape c) := by
  apply oneLine_append.2
  constructor
  · apply oneLine_append.2
    constructor
    · decide
    · exact toDigits_oneLine (by decide) _
  · decide

theorem escapeChar_oneLine (quotes : List Char) (c : Char) :
    OneLine (escapeChar quotes c) := by
  unfold escapeChar
  split
  · decide
  · split
    · decide
    · split
      · decide
      · next hr =>
        split
        · decide
        · next hn =>
          have hc : OneLine [c] := List.forall_mem_singleton.2 ⟨hn, hr⟩
          split
          · exact oneLine_append.2 ⟨(by decide : OneLine ['\\']), hc⟩
          · split
            · exact codePointEscape_oneLine c
            · exact hc

theorem quoted_oneLine (text : String) : OneLine (quoted text).toList := by
  rw [quoted, String.toList_append, String.toList_append]
  apply oneLine_append.2
  constructor
  · apply oneLine_append.2
    constructor
    · decide
    · intro c hc
      rw [String.toList_ofList] at hc
      obtain ⟨b, -, hb⟩ := List.mem_flatMap.1 hc
      exact escapeChar_oneLine _ b c hb
  · decide

end Text

open Text

theorem Position.render_oneLine (p : Position) : OneLine p.render.toList := by
  rw [render, String.toList_append, String.toList_append]
  apply oneLine_append.2
  constructor
  · exact oneLine_append.2 ⟨toString_oneLine _, by decide⟩
  · exact toString_oneLine _

theorem TermKind.name_oneLine (k : TermKind) : OneLine k.name.toList := by
  cases k <;> decide

theorem Role.name_oneLine (r : Role) : OneLine r.name.toList := by
  cases r <;> decide

theorem Term.render_oneLine {t : Term} (h : ∀ n ∈ t.name, OneLine n.render.toList) :
    OneLine t.render.toList := by
  rw [render]
  simp only [String.toList_append, oneLine_append]
  refine ⟨⟨⟨⟨⟨t.kind.name_oneLine, ?name⟩, ?text⟩, ?role⟩, by decide⟩, t.start.render_oneLine⟩
  case name =>
    cases hn : t.name with
    | none => decide
    | some n =>
      rw [String.toList_append, String.toList_append]
      apply oneLine_append.2
      exact ⟨oneLine_append.2 ⟨by decide, h n hn⟩, by decide⟩
  case text =>
    cases t.phrase with
    | none => decide
    | some p =>
      dsimp only
      split
      · rw [String.toList_append]
        exact oneLine_append.2 ⟨by decide, quoted_oneLine _⟩
      · decide
  case role =>
    split
    · decide
    · rw [String.toList_append, String.toList_append]
      apply oneLine_append.2
      exact ⟨oneLine_append.2 ⟨by decide, t.role.name_oneLine⟩, by decide⟩

end TermStream
