import Mathlib.Data.List.Induction
import TermStream.Proofs.Token.Placement

namespace TermStream

open Text

namespace Position

/-- How many line feeds do not directly follow a carriage return. -/
def loneFeeds (cs : List Char) : Nat :=
  (List.range cs.length).countP fun i =>
    decide (cs[i]? = some '\n' ∧ (i = 0 ∨ cs[i - 1]? ≠ some '\r'))

/-- How many characters come after the last line break. -/
def sinceBreak (cs : List Char) : Nat := (cs.reverse.takeWhile fun c => !isLineBreak c).length

def reference (cs : List Char) : Position :=
  ⟨.ofNat (1 + cs.count '\r' + loneFeeds cs), .ofNat (1 + sinceBreak cs), byteLength cs⟩

/-- The line is one more than the line breaks of the text before the position, and the column one
more than the characters after the last of them. A carriage return and the line feed after it are
one line break. Both start again from zero where they do not fit into 32 bits, which a text of fewer
than `2 ^ 32 - 1` characters never comes to. -/
structure Counts (p : Position) (cs : List Char) : Prop where
  offset_eq : p.offset = byteLength cs
  line_mod : p.line.toNat = (1 + cs.count '\r' + loneFeeds cs) % 2 ^ 32
  column_mod : p.column.toNat = (1 + sinceBreak cs) % 2 ^ 32
  line_eq : cs.length + 1 < 2 ^ 32 → p.line.toNat = 1 + cs.count '\r' + loneFeeds cs
  column_eq : cs.length + 1 < 2 ^ 32 → p.column.toNat = 1 + sinceBreak cs

theorem loneFeeds_concat (cs : List Char) (c : Char) :
    loneFeeds (cs ++ [c]) =
      loneFeeds cs + if c = '\n' ∧ cs.getLast? ≠ some '\r' then 1 else 0 := by
  have hinit : ∀ i ∈ List.range cs.length,
      (decide ((cs ++ [c])[i]? = some '\n' ∧ (i = 0 ∨ (cs ++ [c])[i - 1]? ≠ some '\r')) = true ↔
        decide (cs[i]? = some '\n' ∧ (i = 0 ∨ cs[i - 1]? ≠ some '\r')) = true) := by
    intro i hi
    have hi : i < cs.length := List.mem_range.1 hi
    have hbefore : i - 1 < cs.length := Nat.lt_of_le_of_lt (i.sub_le 1) hi
    rw [List.getElem?_append_left hi, List.getElem?_append_left hbefore]
  have hlast : (cs.length = 0 ∨ (cs ++ [c])[cs.length - 1]? ≠ some '\r') ↔
      cs.getLast? ≠ some '\r' := by
    rw [List.getLast?_eq_getElem?]
    cases cs with
    | nil => simp
    | cons d cs => rw [List.getElem?_append_left (Nat.lt_succ_self _)]; simp
  rw [loneFeeds, List.length_append, List.length_singleton, List.range_succ, List.countP_append,
    List.countP_congr hinit, List.countP_singleton, List.getElem?_concat_length]
  simp only [decide_eq_true_eq, Option.some.injEq, hlast]
  rfl

theorem sinceBreak_concat (cs : List Char) (c : Char) :
    sinceBreak (cs ++ [c]) = if isLineBreak c then 0 else sinceBreak cs + 1 := by
  rw [sinceBreak, List.reverse_concat, List.takeWhile_cons]
  cases isLineBreak c <;> rfl

theorem breaks_le_length (cs : List Char) : cs.count '\r' + loneFeeds cs ≤ cs.length := by
  induction cs using List.reverseRecOn with
  | nil => exact Nat.le_refl 0
  | append_singleton cs c ih =>
    rw [loneFeeds_concat, List.count_append, List.length_append, List.length_singleton]
    by_cases hr : c = '\r'
    · subst hr
      simp
      omega
    · have hcount : [c].count '\r' = 0 := List.count_eq_zero.2 (by simpa using Ne.symm hr)
      rw [hcount]
      split <;> omega

theorem sinceBreak_le_length (cs : List Char) : sinceBreak cs ≤ cs.length := by
  rw [← List.length_reverse, sinceBreak]
  exact (List.takeWhile_sublist _).length_le

theorem reference_counts (cs : List Char) : (reference cs).Counts cs := by
  have hline : (reference cs).line.toNat = (1 + cs.count '\r' + loneFeeds cs) % 2 ^ 32 :=
    UInt32.toNat_ofNat'
  have hcolumn : (reference cs).column.toNat = (1 + sinceBreak cs) % 2 ^ 32 := UInt32.toNat_ofNat'
  refine ⟨rfl, hline, hcolumn, fun hlt => ?_, fun hlt => ?_⟩
  · have hle := breaks_le_length cs
    rw [hline]
    exact Nat.mod_eq_of_lt (by omega)
  · have hle := sinceBreak_le_length cs
    rw [hcolumn]
    exact Nat.mod_eq_of_lt (by omega)

theorem reference_concat (cs : List Char) (c : Char) :
    reference (cs ++ [c]) = (reference cs).advance c cs.getLast? := by
  have hcolumn : cs.getLast? = some '\r' → sinceBreak cs = 0 := by
    intro h
    obtain ⟨init, rfl⟩ := List.getLast?_eq_some_iff.1 h
    rw [sinceBreak_concat, if_pos (by decide)]
  rw [reference, sinceBreak_concat, loneFeeds_concat, List.count_append, byteLength_append, advance]
  by_cases hr : c = '\r'
  · subst hr
    have hbreak : isLineBreak '\r' = true := by decide
    simp [reference, hbreak]
    ac_rfl
  · by_cases hf : c = '\n'
    · subst hf
      have hbreak : isLineBreak '\n' = true := by decide
      by_cases hlast : cs.getLast? = some '\r'
      · simp [reference, hbreak, hlast, hcolumn hlast]
      · simp [reference, hbreak, hlast]
        ac_rfl
    · have hbreak : isLineBreak c = false := by simp [isLineBreak, hf, hr]
      simp [reference, hbreak, hf, hr]
      ac_rfl

/-- Positions that are counted character by character are told by the text before them. -/
theorem behind_eq_reference (cs : List Char) : behind cs = reference cs := by
  induction cs using List.reverseRecOn with
  | nil => rfl
  | append_singleton cs c ih =>
    rw [behind_append, ih, reference_concat]
    rfl

theorem behind_counts (cs : List Char) : (behind cs).Counts cs := by
  rw [behind_eq_reference]
  exact reference_counts cs

end Position

namespace Lexer

/-- The errors of a token are on all of it, and nothing else has caused them. -/
theorem made_errors (l : Lexer) (source : String) (found : Extent) (text : List Char) :
    ∀ n ∈ (l.made source found text).errors.nodes,
      n.1.location = ⟨source, (l.made source found text).start, (l.made source found text).stop⟩ ∧
        n.2 = .nil := by
  intro n hn
  rw [made, nodes_chainOf] at hn
  obtain ⟨f, -, rfl⟩ := List.mem_map.1 hn
  exact ⟨rfl, rfl⟩

theorem lexemeWithin_length_le {l : Lexer} {limit : Nat} {final : Bool} {first : Char}
    {cs : List Char} {found : Extent} (h : l.lexemeWithin limit final first cs = some found)
    (hl : 0 < limit) : found.length ≤ limit := by
  have hv : (upTo (limit - 1) cs).length ≤ limit - 1 := by
    rw [upTo_eq_take, List.length_take]
    exact Nat.min_le_left _ _
  have hlength := lexemeWithin_length_eq h
  unfold Lexeme.length at hlength
  omega

theorem nextLexeme_length_le {l : Lexer} {final : Bool} {first : Char} {cs : List Char}
    {found : Extent} (h : l.nextLexeme final first cs = some found) (hl : 0 < l.limit) :
    found.length ≤ l.limit := by
  unfold nextLexeme at h
  split at h
  · cases h
  · split at h
    · next hle =>
      cases h
      exact hle
    · exact lexemeWithin_length_le h hl

structure Cut (limit : Nat) (t : Token) : Prop where
  kind_ne : t.kind ≠ .eof
  text_ne : t.text ≠ ""
  length_le : t.text.length ≤ limit

theorem made_cut {l : Lexer} {first : Char} {rest : List Char} {found : Extent} (source : String)
    (hf : l.nextLexeme true first rest = some found) (hl : 0 < l.limit) :
    Cut l.limit (l.made source found ((first :: rest).take found.length)) := by
  obtain ⟨hpos, -⟩ := nextLexeme_length hf
  refine ⟨nextLexeme_kind_ne_eof hf, fun he => ?_, ?_⟩
  · have htext : (first :: rest).take found.length = [] := String.ofList_eq_empty_iff.1 he
    rw [List.take_eq_nil_iff] at htext
    exact htext.elim (Nat.ne_of_gt hpos) nofun
  · change (String.ofList _).length ≤ _
    rw [String.length_ofList, List.length_take]
    exact Nat.le_trans (Nat.min_le_left _ _) (nextLexeme_length_le hf hl)

theorem ahead_cut {l : Lexer} {source : String} (cs : List Char) (hs : l.source = some source)
    (hp : l.pending = none) (he : l.ended = false) (hl : 0 < l.limit) :
    ∃ init p, l.ahead cs = init ++ [.eof p] ∧ (∀ t ∈ init, Cut l.limit t) ∧
      ∀ t ∈ init, ∀ n ∈ t.errors.nodes, n.1.location = ⟨source, t.start, t.stop⟩ ∧ n.2 = .nil := by
  revert hl
  refine ahead_induction (motive := fun l _ ts => 0 < l.limit →
    ∃ init p, ts = init ++ [.eof p] ∧ (∀ t ∈ init, Cut l.limit t) ∧
      ∀ t ∈ init, ∀ n ∈ t.errors.nodes, n.1.location = ⟨source, t.start, t.stop⟩ ∧ n.2 = .nil)
    ?_ ?_ cs hs hp he
  · exact fun l _ => ⟨[], l.position, rfl, List.forall_mem_nil _, List.forall_mem_nil _⟩
  · rintro l first rest found text ts hf rfl ih hl
    obtain ⟨init, p, rfl, hcut, herrors⟩ := ih hl
    refine ⟨_ :: init, p, rfl, ?_, ?_⟩
    · intro t ht
      rcases List.mem_cons.1 ht with rfl | ht
      · exact made_cut source hf hl
      · exact hcut t ht
    · intro t ht
      rcases List.mem_cons.1 ht with rfl | ht
      · exact l.made_errors source found _
      · exact herrors t ht

end Lexer

theorem Laid.bounds {α : Type} {start stop : α → Position} {text : α → String} {front back : List α}
    {a : α} (h : Laid start stop text [] (front ++ a :: back)) :
    (start a).Counts (textOf text front) ∧ (stop a).Counts (textOf text (front ++ [a])) ∧
      ∀ b ∈ back.head?, start b = stop a := by
  have htext : textOf text (front ++ [a]) = textOf text front ++ (text a).toList := by simp
  obtain ⟨-, hstart, hstop, hback⟩ := laid_append.1 h
  rw [List.nil_append] at hstart hstop hback
  rw [htext, hstart, hstop]
  refine ⟨Position.behind_counts _, Position.behind_counts _, fun b hb => ?_⟩
  cases back with
  | nil => cases hb
  | cons c back =>
    cases hb
    exact hback.1

/-- The tokens of a source are cut from it one behind the other, and their texts are its text. Each
but the last is a piece of text that is not longer than the limit, and the last is the end of the
input. A token starts and stops where the text before it and with it says, and all of its errors are
located on it. -/
theorem tokens_tile (source text : String) (settings : Settings) :
    ∃ init last, tokens source text settings = .ok (init ++ [last]) ∧
      (∀ t ∈ init, t.kind ≠ .eof ∧ t.text ≠ "" ∧
        t.text.length ≤ max settings.maxTokenLength 1) ∧
      last.kind = .eof ∧ last.text = "" ∧ last.start.Counts text.toList ∧
      last.stop = last.start ∧
      textOf Token.text (init ++ [last]) = text.toList ∧
      (∀ front t back, init ++ [last] = front ++ t :: back →
        t.start.Counts (textOf Token.text front) ∧
        t.stop.Counts (textOf Token.text (front ++ [t])) ∧
        ∀ u ∈ back.head?, u.start = t.stop) ∧
      ∀ t ∈ init ++ [last], ∀ n ∈ t.errors.nodes,
        n.1.location = ⟨source, t.start, t.stop⟩ ∧ n.2 = .nil := by
  let l : Lexer := { Lexer.new settings with source := some source, position := .start }
  have hl : 0 < l.limit := Nat.lt_of_lt_of_le Nat.zero_lt_one (Nat.le_max_right _ _)
  have hlaid : Token.Laid [] (l.ahead text.toList) := l.ahead_laid _ rfl rfl rfl rfl rfl
  have htiles := (l.ahead_tiles text.toList rfl rfl rfl).1
  obtain ⟨init, p, hahead, hcut, herrors⟩ := l.ahead_cut text.toList rfl rfl rfl hl
  rw [hahead] at hlaid htiles
  have hbound : ∀ front t back, init ++ [.eof p] = front ++ t :: back →
      t.start.Counts (textOf Token.text front) ∧
      t.stop.Counts (textOf Token.text (front ++ [t])) ∧
      ∀ u ∈ back.head?, u.start = t.stop := by
    intro front t back hs
    rw [hs] at hlaid
    exact hlaid.bounds
  have htext : textOf Token.text init = text.toList := by
    rw [← htiles, ← List.append_nil (textOf Token.text init)]
    exact (textOf_append Token.text init [.eof p]).symm
  have hstart : p.Counts text.toList := htext ▸ (hbound init (.eof p) [] rfl).1
  refine ⟨init, .eof p, ?_, fun t ht => ?_, rfl, rfl, hstart, rfl, htiles, hbound, ?_⟩
  · rw [tokens_eq_ahead]
    exact congrArg Except.ok hahead
  · obtain ⟨hk, hne, hle⟩ := hcut t ht
    exact ⟨hk, hne, hle⟩
  · intro t ht
    rcases List.mem_append.1 ht with ht | ht
    · exact herrors t ht
    · obtain rfl := List.mem_singleton.1 ht
      exact List.forall_mem_nil _

end TermStream
