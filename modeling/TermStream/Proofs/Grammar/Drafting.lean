import TermStream.Proofs.Grammar.Keywords

namespace TermStream

inductive DraftOperation where
  | setScript (script : Bool)
  | setErrors (errors : ErrorChain)
  | reserve
  | define (id : ActionId) (a : Action)
  | add (a : Action)
  | keyword (text : String)
  | keywordContext (name : String) (words : List String)
  | reserveRule (name : String)
  | defineRule (id : RuleId) (r : Rule)
  | rule (r : Rule)
  | context (name : String) (entry : ActionId) (keywords : Option KeywordContextId)
  | setDefaultContext (id : ContextId)
deriving DecidableEq

/-- What an operation answers: nothing, the index of a part, or why it is refused. -/
inductive DraftAnswer where
  | done
  | index (i : Nat)
  | refused (e : GrammarError)
deriving DecidableEq

abbrev DraftCall := DraftOperation × DraftAnswer

namespace Draft

def settle (d : Draft) : Except GrammarError (DraftAnswer × Draft) → DraftAnswer × Draft
  | .ok r => r
  | .error e => (.refused e, d)

def perform (d : Draft) : DraftOperation → DraftAnswer × Draft
  | .setScript script => (.done, d.setScript script)
  | .setErrors errors => (.done, d.setErrors errors)
  | .reserve => d.reserve.map .index id
  | .define i a => d.settle ((d.define i a).map (.done, ·))
  | .add a => (d.add a).map .index id
  | .keyword text => (d.keyword text).map .index id
  | .keywordContext name words => (d.keywordContext name words).map .index id
  | .reserveRule name => (d.reserveRule name).map .index id
  | .defineRule i r => d.settle ((d.defineRule i r).map (.done, ·))
  | .rule r => (d.rule r).map .index id
  | .context name entry keywords =>
    d.settle ((d.context name entry keywords).map (Prod.map .index id))
  | .setDefaultContext i => (.done, d.setDefaultContext i)

def performAll (d : Draft) : List DraftOperation → List DraftCall × Draft
  | [] => ([], d)
  | op :: ops =>
    let (answer, d) := d.perform op
    let (calls, d) := d.performAll ops
    ((op, answer) :: calls, d)

theorem performAll_cons (d : Draft) (op : DraftOperation) (ops : List DraftOperation) :
    d.performAll (op :: ops) = ((op, (d.perform op).1) :: ((d.perform op).2.performAll ops).1,
      ((d.perform op).2.performAll ops).2) := rfl

/-- What one call does to a draft whose table of keywords has come about by asking for `texts`. -/
inductive Performs (texts : List String) (d : Draft) :
    DraftOperation → DraftAnswer → Draft → Prop
  | refused : Performs texts d op (.refused e) d
  | setScript : Performs texts d (.setScript script) .done { d with isScript := script }
  | setErrors : Performs texts d (.setErrors es) .done { d with errors := es }
  | reserve : Performs texts d .reserve (.index d.actions.size)
      { d with actions := d.actions.push none }
  | define (h : d.actions[i]? = some none) : Performs texts d (.define i a) .done
      { d with actions := d.actions.setIfInBounds i (some a) }
  | add : Performs texts d (.add a) (.index d.actions.size)
      { d with actions := d.actions.push (some a) }
  | keyword : Performs texts d (.keyword text) (.index ((texts ++ [text]).eraseDups.idxOf text))
      { d with keywords := (texts ++ [text]).eraseDups.toArray }
  | keywordContext : Performs texts d (.keywordContext name words) (.index d.keywordContexts.size)
      { d with
        keywords := (texts ++ words).eraseDups.toArray
        keywordContexts :=
          d.keywordContexts.push ⟨name, knownWords (texts ++ words).eraseDups words⟩ }
  | reserveRule : Performs texts d (.reserveRule name) (.index d.rules.size)
      { d with rules := d.rules.push (name, none) }
  | defineRule (h : d.rules[i]? = some (name, none)) : Performs texts d (.defineRule i r) .done
      { d with rules := d.rules.setIfInBounds i (name, some r) }
  | rule : Performs texts d (.rule r) (.index d.rules.size)
      { d with rules := d.rules.push (r.name, some r) }
  | context (h : ∀ c ∈ d.contexts, c.name ≠ name) :
      Performs texts d (.context name entry ks) (.index d.contexts.size)
        { d with contexts := d.contexts.push ⟨name, entry, ks⟩ }
  | setDefaultContext : Performs texts d (.setDefaultContext i) .done
      { d with defaultContext := some i }

theorem performs {d : Draft} {texts : List String} (h : d.keywords = texts.eraseDups.toArray)
    (op : DraftOperation) : Performs texts d op (d.perform op).1 (d.perform op).2 := by
  cases op with
  | define i a =>
    simp only [perform, define]
    split
    · exact .refused
    · exact .refused
    · next hi => exact .define hi
  | defineRule i r =>
    simp only [perform, defineRule]
    split
    · exact .refused
    · exact .refused
    · next hi => exact .defineRule hi
  | context name entry keywords =>
    simp only [perform, Draft.context]
    split
    · exact .refused
    · next hn =>
      exact .context fun c hc he => hn (Array.any_eq_true'.2 ⟨c, hc, beq_iff_eq.2 he⟩)
  | keyword text =>
    simp only [perform, keyword_eq h]
    exact .keyword
  | keywordContext name words =>
    simp only [perform, keywordContext, keywordList_eq h]
    exact .keywordContext
  | _ => constructor

theorem Performs.eq_of_refused {d d' : Draft} {texts : List String} {op : DraftOperation}
    {e : GrammarError} (h : Performs texts d op (.refused e) d') : d' = d := by
  cases h
  rfl

end Draft

def DraftCall.texts : DraftCall → List String
  | (.keyword text, .index _) => [text]
  | (.keywordContext _ words, .index _) => words
  | _ => []

def DraftCall.default? : DraftCall → Option ContextId
  | (.setDefaultContext id, .done) => some id
  | _ => none

section

variable (calls : List DraftCall)

/-- The keywords that were asked for, each once. -/
def keywordTexts : List String := (calls.flatMap DraftCall.texts).eraseDups

/-- The default context that was set last, or else the first one. -/
def defaultContextOf : ContextId := (calls.filterMap DraftCall.default?).getLast?.getD 0

end

theorem keywordTexts_concat (calls : List DraftCall) (c : DraftCall) :
    keywordTexts (calls ++ [c]) = (calls.flatMap DraftCall.texts ++ c.texts).eraseDups := by
  simp [keywordTexts]

theorem mem_keywordTexts {calls : List DraftCall} {c : DraftCall} {text : String}
    (hc : c ∈ calls) (ht : text ∈ c.texts) : text ∈ keywordTexts calls :=
  List.mem_eraseDups.2 (List.mem_flatMap.2 ⟨c, hc, ht⟩)

theorem knownWords_concat {calls : List DraftCall} {name : String} {words : List String} {i : Nat}
    (h : (.keywordContext name words, .index i) ∈ calls) (c : DraftCall) :
    knownWords (keywordTexts (calls ++ [c])) words = knownWords (keywordTexts calls) words := by
  apply List.map_congr_left
  intro w hw
  have hmem : w ∈ calls.flatMap DraftCall.texts :=
    List.mem_flatMap.2 ⟨_, h, List.mem_dedup.1 hw⟩
  rw [keywordTexts_concat, idxOf_eraseDups_append hmem, keywordTexts]

theorem getElem?_push_iff {α : Type} {xs : Array α} {x y : α} {i : Nat} :
    (xs.push x)[i]? = some y ↔ xs[i]? = some y ∨ i = xs.size ∧ x = y := by
  rw [Array.getElem?_push]
  split
  · next h => simp [h]
  · next h => simp [h]

/-- A table of parts some of which are only reserved: a place is filled by what was added or defined
there, and one that is reserved is empty until then. -/
structure Slots {α : Type} (slots : Array (Option α)) (reserved : Nat → Prop)
    (added defined : Nat → α → Prop) : Prop where
  reserved_of_defined : ∀ i a, defined i a → reserved i
  empty_iff : ∀ i, slots[i]? = some none ↔ reserved i ∧ ∀ a, ¬ defined i a
  filled_iff : ∀ i a, slots[i]? = some (some a) ↔ added i a ∨ defined i a

namespace Slots

variable {α : Type} {slots : Array (Option α)} {reserved : Nat → Prop}
  {added defined : Nat → α → Prop}

theorem reserve (h : Slots slots reserved added defined) :
    Slots (slots.push none) (fun i => reserved i ∨ i = slots.size) added defined where
  reserved_of_defined i a hd := .inl (h.reserved_of_defined i a hd)
  empty_iff i := by
    have hnew : ∀ a, ¬ defined slots.size a := by
      intro a hd
      simpa using (h.filled_iff _ a).2 (.inr hd)
    rw [getElem?_push_iff, h.empty_iff]
    constructor
    · rintro (⟨hr, hd⟩ | ⟨rfl, -⟩)
      · exact ⟨.inl hr, hd⟩
      · exact ⟨.inr rfl, hnew⟩
    · rintro ⟨hr | rfl, hd⟩
      · exact .inl ⟨hr, hd⟩
      · exact .inr ⟨rfl, rfl⟩
  filled_iff i a := by
    rw [getElem?_push_iff, h.filled_iff]
    simp

theorem add (h : Slots slots reserved added defined) (b : α) :
    Slots (slots.push (some b)) reserved (fun i a => added i a ∨ i = slots.size ∧ a = b)
      defined where
  reserved_of_defined := h.reserved_of_defined
  empty_iff i := by
    rw [getElem?_push_iff, h.empty_iff]
    simp
  filled_iff i a := by
    rw [getElem?_push_iff, h.filled_iff, Option.some_inj, eq_comm (a := b), or_right_comm]

theorem define (h : Slots slots reserved added defined) {j : Nat}
    (hj : slots[j]? = some none) (b : α) :
    Slots (slots.setIfInBounds j (some b)) reserved added
      (fun i a => defined i a ∨ i = j ∧ a = b) := by
  have hset : ∀ i, i ≠ j → (slots.setIfInBounds j (some b))[i]? = slots[i]? := by
    intro i hi
    rw [Array.getElem?_setIfInBounds, if_neg hi.symm]
  have hself : (slots.setIfInBounds j (some b))[j]? = some (some b) := by
    obtain ⟨hlt, -⟩ := Array.getElem?_eq_some_iff.1 hj
    rw [Array.getElem?_setIfInBounds, if_pos rfl, if_pos hlt]
  refine ⟨?_, fun i => ?_, fun i a => ?_⟩
  · rintro i a (hd | ⟨rfl, -⟩)
    · exact h.reserved_of_defined i a hd
    · exact ((h.empty_iff i).1 hj).1
  · by_cases hi : i = j
    · subst hi
      rw [hself]
      exact ⟨nofun, fun ⟨_, hd⟩ => (hd b (.inr ⟨rfl, rfl⟩)).elim⟩
    · simp [hset i hi, h.empty_iff, hi]
  · by_cases hi : i = j
    · subst hi
      have hempty : ¬ (added i a ∨ defined i a) := by
        rw [← h.filled_iff, hj]
        simp
      rw [hself, ← or_assoc]
      simp [hempty, eq_comm]
    · simp [hset i hi, h.filled_iff, hi]

theorem filled_iff_reserved (h : Slots slots reserved added defined) (i : Nat) (a : α) :
    slots[i]? = some (some a) ↔ added i a ∨ reserved i ∧ defined i a := by
  rw [h.filled_iff]
  exact or_congr_right ⟨fun hd => ⟨h.reserved_of_defined i a hd, hd⟩, And.right⟩

theorem lt_size_iff (h : Slots slots reserved added defined) {i : Nat} :
    i < slots.size ↔ reserved i ∨ ∃ a, added i a := by
  constructor
  · intro hi
    cases hs : slots[i] with
    | none => exact .inl ((h.empty_iff i).1 (by rw [Array.getElem?_eq_getElem hi, hs])).1
    | some a =>
      obtain ha | hd := (h.filled_iff i a).1 (by rw [Array.getElem?_eq_getElem hi, hs])
      · exact .inr ⟨a, ha⟩
      · exact .inl (h.reserved_of_defined i a hd)
  · intro hi
    obtain ⟨slot, hs⟩ : ∃ slot, slots[i]? = some slot := by
      obtain hr | ⟨a, ha⟩ := hi
      · by_cases hd : ∃ a, defined i a
        · obtain ⟨a, hd⟩ := hd
          exact ⟨_, (h.filled_iff i a).2 (.inr hd)⟩
        · exact ⟨_, (h.empty_iff i).2 ⟨hr, not_exists.1 hd⟩⟩
      · exact ⟨_, (h.filled_iff i a).2 (.inl ha)⟩
    exact (Array.getElem?_eq_some_iff.1 hs).1

theorem none_notMem_iff (h : Slots slots reserved added defined) :
    none ∉ slots ↔ ∀ i, reserved i → ∃ a, defined i a := by
  simp [Array.mem_iff_getElem?, h.empty_iff]

end Slots

/-- What a draft has is what its calls have put there. -/
structure Draft.Keeps (d : Draft) (calls : List DraftCall) : Prop where
  actions : Slots d.actions (fun i => (.reserve, .index i) ∈ calls)
    (fun i a => (.add a, .index i) ∈ calls) (fun i a => (.define i a, .done) ∈ calls)
  rules : Slots (d.rules.map (·.2)) (fun i => ∃ name, (.reserveRule name, .index i) ∈ calls)
    (fun i r => (.rule r, .index i) ∈ calls) (fun i r => (.defineRule i r, .done) ∈ calls)
  contexts : ∀ i c, d.contexts[i]? = some c ↔
    (.context c.name c.entry c.keywords, .index i) ∈ calls
  names : ∀ (i j : Nat) (c c' : Context), d.contexts[i]? = some c → d.contexts[j]? = some c' →
    c.name = c'.name → i = j
  default : d.defaultContext.getD 0 = defaultContextOf calls
  keywords : d.keywords = (keywordTexts calls).toArray
  keyword : ∀ text i, (.keyword text, .index i) ∈ calls → i = (keywordTexts calls).idxOf text
  keywordContexts : ∀ i k, d.keywordContexts[i]? = some k ↔ ∃ words,
    (.keywordContext k.name words, .index i) ∈ calls ∧
      k.words = knownWords (keywordTexts calls) words

namespace Draft.Keeps

variable {d d' : Draft} {calls : List DraftCall} {op : DraftOperation} {answer : DraftAnswer}

theorem actions_performs (h : d.Keeps calls)
    (hp : Performs (calls.flatMap DraftCall.texts) d op answer d') :
    Slots d'.actions (fun i => (.reserve, .index i) ∈ calls ++ [(op, answer)])
      (fun i a => (.add a, .index i) ∈ calls ++ [(op, answer)])
      (fun i a => (.define i a, .done) ∈ calls ++ [(op, answer)]) := by
  cases hp with
  | reserve => simpa using h.actions.reserve
  | define hi => simpa using h.actions.define hi _
  | add => simpa [and_comm] using h.actions.add _
  | _ => simpa using h.actions

theorem rules_performs (h : d.Keeps calls)
    (hp : Performs (calls.flatMap DraftCall.texts) d op answer d') :
    Slots (d'.rules.map (·.2))
      (fun i => ∃ name, (.reserveRule name, .index i) ∈ calls ++ [(op, answer)])
      (fun i r => (.rule r, .index i) ∈ calls ++ [(op, answer)])
      (fun i r => (.defineRule i r, .done) ∈ calls ++ [(op, answer)]) := by
  cases hp with
  | reserveRule => simpa [exists_or] using h.rules.reserve
  | defineRule hi => simpa using h.rules.define (by simp [hi]) _
  | rule => simpa [and_comm] using h.rules.add _
  | _ => simpa using h.rules

theorem contexts_performs (h : d.Keeps calls)
    (hp : Performs (calls.flatMap DraftCall.texts) d op answer d') (i : Nat) (c : Context) :
    d'.contexts[i]? = some c ↔
      (.context c.name c.entry c.keywords, .index i) ∈ calls ++ [(op, answer)] := by
  cases hp with
  | context hn =>
    rw [getElem?_push_iff, h.contexts]
    obtain ⟨name, entry, keywords⟩ := c
    simp [and_comm, and_left_comm, eq_comm]
  | _ => simpa using h.contexts i c

theorem names_performs (h : d.Keeps calls)
    (hp : Performs (calls.flatMap DraftCall.texts) d op answer d') (i j : Nat)
    (c c' : Context) (hi : d'.contexts[i]? = some c) (hj : d'.contexts[j]? = some c')
    (he : c.name = c'.name) : i = j := by
  cases hp with
  | context hn =>
    obtain hi | ⟨rfl, rfl⟩ := getElem?_push_iff.1 hi
    · obtain hj | ⟨rfl, rfl⟩ := getElem?_push_iff.1 hj
      · exact h.names i j c c' hi hj he
      · exact (hn c (Array.mem_of_getElem? hi) he).elim
    · obtain hj | ⟨rfl, -⟩ := getElem?_push_iff.1 hj
      · exact (hn c' (Array.mem_of_getElem? hj) he.symm).elim
      · rfl
  | _ => exact h.names i j c c' hi hj he

theorem default_performs (h : d.Keeps calls)
    (hp : Performs (calls.flatMap DraftCall.texts) d op answer d') :
    d'.defaultContext.getD 0 = defaultContextOf (calls ++ [(op, answer)]) := by
  have hd := h.default
  unfold defaultContextOf at hd ⊢
  rw [List.filterMap_append]
  cases hp with
  | setDefaultContext => simp [DraftCall.default?]
  | _ => simpa [DraftCall.default?] using hd

theorem keywords_performs (h : d.Keeps calls)
    (hp : Performs (calls.flatMap DraftCall.texts) d op answer d') :
    d'.keywords = (keywordTexts (calls ++ [(op, answer)])).toArray := by
  have hk := h.keywords
  unfold keywordTexts at hk ⊢
  rw [List.flatMap_append]
  cases hp with
  | keyword | keywordContext => simp [DraftCall.texts]
  | _ => simpa [DraftCall.texts] using hk

theorem keyword_performs (h : d.Keeps calls)
    (hp : Performs (calls.flatMap DraftCall.texts) d op answer d') (text : String) (i : Nat)
    (hc : (.keyword text, .index i) ∈ calls ++ [(op, answer)]) :
    i = (keywordTexts (calls ++ [(op, answer)])).idxOf text := by
  rw [keywordTexts_concat]
  obtain hc | hc := List.mem_append.1 hc
  · have hmem : text ∈ calls.flatMap DraftCall.texts :=
      List.mem_flatMap.2 ⟨_, hc, List.mem_singleton_self text⟩
    rw [idxOf_eraseDups_append hmem]
    exact h.keyword text i hc
  · cases List.mem_singleton.1 hc
    cases hp
    rfl

theorem keywordContexts_performs (h : d.Keeps calls)
    (hp : Performs (calls.flatMap DraftCall.texts) d op answer d') (i : Nat)
    (k : KeywordContext) : d'.keywordContexts[i]? = some k ↔ ∃ words,
      (.keywordContext k.name words, .index i) ∈ calls ++ [(op, answer)] ∧
        k.words = knownWords (keywordTexts (calls ++ [(op, answer)])) words := by
  have hsplit : (∃ words, (.keywordContext k.name words, .index i) ∈ calls ++ [(op, answer)] ∧
      k.words = knownWords (keywordTexts (calls ++ [(op, answer)])) words) ↔
      d.keywordContexts[i]? = some k ∨ ∃ words, (.keywordContext k.name words, .index i) =
        (op, answer) ∧ k.words = knownWords (keywordTexts (calls ++ [(op, answer)])) words := by
    have hold : ∀ words, ((.keywordContext k.name words, .index i) ∈ calls ∧
        k.words = knownWords (keywordTexts (calls ++ [(op, answer)])) words) ↔
        (.keywordContext k.name words, .index i) ∈ calls ∧
          k.words = knownWords (keywordTexts calls) words :=
      fun words => and_congr_right fun hc => by rw [knownWords_concat hc]
    simp only [h.keywordContexts, List.mem_append, List.mem_singleton, or_and_right, exists_or,
      hold]
  rw [hsplit]
  cases hp with
  | keywordContext =>
    rw [getElem?_push_iff, keywordTexts_concat]
    obtain ⟨name, words⟩ := k
    refine or_congr_right ⟨?_, ?_⟩
    · rintro ⟨rfl, hk⟩
      cases hk
      exact ⟨_, rfl, rfl⟩
    · rintro ⟨_, hc, hk⟩
      dsimp only at hc hk
      subst hk
      cases hc
      exact ⟨rfl, rfl⟩
  | _ => simp

theorem new (systemId : String) : (Draft.new systemId).Keeps [] where
  actions := by constructor <;> simp [Draft.new]
  rules := by constructor <;> simp [Draft.new]
  contexts := by simp [Draft.new]
  names := by simp [Draft.new]
  default := rfl
  keywords := rfl
  keyword := by simp
  keywordContexts := by simp [Draft.new]

theorem perform (h : d.Keeps calls) (op : DraftOperation) :
    (d.perform op).2.Keeps (calls ++ [(op, (d.perform op).1)]) := by
  have hp := performs h.keywords op
  exact ⟨h.actions_performs hp, h.rules_performs hp, h.contexts_performs hp, h.names_performs hp,
    h.default_performs hp, h.keywords_performs hp, h.keyword_performs hp,
    h.keywordContexts_performs hp⟩

theorem performAll (h : d.Keeps calls) (ops : List DraftOperation) :
    (d.performAll ops).2.Keeps (calls ++ (d.performAll ops).1) := by
  induction ops generalizing d calls with
  | nil => simpa [Draft.performAll] using h
  | cons op ops ih =>
    have hrest := ih (h.perform op)
    rwa [List.append_assoc, List.singleton_append] at hrest

end Draft.Keeps

/-- The draft that any operations on a new one lead to has what they put there. -/
theorem Draft.keeps_performAll (systemId : String) (ops : List DraftOperation) :
    ((Draft.new systemId).performAll ops).2.Keeps ((Draft.new systemId).performAll ops).1 :=
  (Keeps.new systemId).performAll ops

end TermStream
