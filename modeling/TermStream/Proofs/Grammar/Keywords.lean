import Mathlib.Data.List.Dedup
import Mathlib.Data.List.Induction
import TermStream.Grammar.Draft

namespace TermStream

theorem eraseDups_concat (texts : List String) (text : String) :
    (texts ++ [text]).eraseDups =
      if text ∈ texts then texts.eraseDups else texts.eraseDups ++ [text] := by
  rw [List.eraseDups_append]
  split
  · next h => simp [List.removeAll, h]
  · next h => simp [List.removeAll, h, List.eraseDups_cons]

theorem nodup_eraseDups (texts : List String) : texts.eraseDups.Nodup := by
  induction texts using List.reverseRecOn with
  | nil => simp
  | append_singleton texts text ih =>
    rw [eraseDups_concat]
    split
    · exact ih
    · next h =>
      refine List.nodup_append.2 ⟨ih, List.nodup_singleton text, ?_⟩
      rintro t ht u hu rfl
      exact h (List.mem_eraseDups.1 (List.mem_singleton.1 hu ▸ ht))

theorem idxOf_eraseDups_append {text : String} {texts : List String} (h : text ∈ texts)
    (more : List String) :
    (texts ++ more).eraseDups.idxOf text = texts.eraseDups.idxOf text := by
  rw [List.eraseDups_append, List.idxOf_append_of_mem (List.mem_eraseDups.2 h)]

/-- The words of a set of keywords with their indices in a table. The last one of a repeated word
counts. -/
def knownWords (table words : List String) : List (String × KeywordId) :=
  words.dedup.map fun w => (w, table.idxOf w)

theorem mem_knownWords {table words : List String} {w : String} {id : KeywordId} :
    (w, id) ∈ knownWords table words ↔ w ∈ words ∧ id = table.idxOf w := by
  simp [knownWords, eq_comm]

theorem knownWords_cons (table : List String) (w : String) (words : List String) :
    knownWords table (w :: words) =
      if w ∈ words then knownWords table words
      else (w, table.idxOf w) :: knownWords table words := by
  unfold knownWords
  split
  · next h => rw [List.dedup_cons_of_mem h]
  · next h => rw [List.dedup_cons_of_notMem h, List.map_cons]

/-- A set of keywords finds exactly its words. -/
theorem KeywordContext.lookup?_knownWords (name : String) (table words : List String)
    (w : String) : lookup? ⟨name, knownWords table words⟩ w =
      if w ∈ words then some (table.idxOf w) else none := by
  unfold lookup? knownWords
  rw [List.find?_map, Option.map_map]
  split
  · next hw =>
    obtain ⟨v, hv⟩ := Option.isSome_iff_exists.1
      (List.find?_isSome (p := fun v => v == w).2 ⟨w, List.mem_dedup.2 hw, beq_self_eq_true w⟩)
    obtain rfl : v = w := by simpa using List.find?_some hv
    exact congrArg _ hv
  · next hw =>
    have hn : words.dedup.find? (fun v => v == w) = none :=
      List.find?_eq_none.2 fun v hv => by
        simpa using ne_of_mem_of_not_mem (List.mem_dedup.1 hv) hw
    exact congrArg _ hn

namespace Draft

variable {d : Draft} {texts : List String}

theorem keyword_eq (h : d.keywords = texts.eraseDups.toArray) (text : String) :
    d.keyword text = ((texts ++ [text]).eraseDups.idxOf text,
      { d with keywords := (texts ++ [text]).eraseDups.toArray }) := by
  have hfind : d.keywords.findIdx? (fun w => w == text) =
      texts.eraseDups.findIdx? (fun w => w == text) := by
    rw [h, List.findIdx?_toArray]
  unfold keyword
  rw [hfind, eraseDups_concat]
  split
  · next id hid =>
    obtain ⟨hlt, rfl⟩ := List.findIdx?_eq_some_iff_findIdx_eq.1 hid
    have ht : text ∈ texts := List.mem_eraseDups.1 (List.idxOf_lt_length_iff.1 hlt)
    rw [if_pos ht, ← h]
    rfl
  · next hid =>
    have hn : text ∉ texts.eraseDups := by
      intro ht
      simpa using List.findIdx?_eq_none_iff.1 hid text ht
    rw [if_neg (mt List.mem_eraseDups.2 hn), List.idxOf_append_of_notMem hn]
    simp [h]

theorem keywordList_eq (h : d.keywords = texts.eraseDups.toArray) (words : List String) :
    d.keywordList words = (knownWords (texts ++ words).eraseDups words,
      { d with keywords := (texts ++ words).eraseDups.toArray }) := by
  induction words generalizing d texts with
  | nil => simp [keywordList, knownWords, ← h]
  | cons w words ih =>
    have hrest := ih (d := { d with keywords := (texts ++ [w]).eraseDups.toArray }) rfl
    rw [List.append_assoc, List.singleton_append] at hrest
    have hmem : w ∈ texts ++ [w] := List.mem_append_right texts (List.mem_singleton_self w)
    have hsame := idxOf_eraseDups_append hmem words
    rw [List.append_assoc, List.singleton_append] at hsame
    unfold keywordList
    rw [keyword_eq h w]
    simp only [hrest, knownWords_cons, hsame, List.contains_iff_mem]

end Draft

end TermStream
