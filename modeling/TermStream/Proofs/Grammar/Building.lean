import TermStream.Proofs.Grammar.Drafting
import TermStream.Proofs.Grammar.Mentions

namespace TermStream

namespace Draft

variable (calls : List DraftCall)

/-- A call has given out the index of a part, the ones of keywords in their order. -/
def GivenOut : Part → Nat → Prop
  | .action, i => (.reserve, .index i) ∈ calls ∨ ∃ a, (.add a, .index i) ∈ calls
  | .rule, i => (∃ name, (.reserveRule name, .index i) ∈ calls) ∨ ∃ r, (.rule r, .index i) ∈ calls
  | .context, i => ∃ c : Context, (.context c.name c.entry c.keywords, .index i) ∈ calls
  | .keyword, i => i < (keywordTexts calls).length
  | .keywordContext, i => ∃ name words, (.keywordContext name words, .index i) ∈ calls

/-- The index of a part stands in something that was defined, or is that of the default context. -/
inductive Mentioned : Part → Nat → Prop
  | added (h : (.add a, .index j) ∈ calls) (hm : a.Mentions part i) : Mentioned part i
  | defined (h : (.define j a, .done) ∈ calls) (hm : a.Mentions part i) : Mentioned part i
  | rule (h : (.rule r, .index j) ∈ calls) (hm : r.Mentions part i) : Mentioned part i
  | ruleDefined (h : (.defineRule j r, .done) ∈ calls) (hm : r.Mentions part i) :
      Mentioned part i
  | context {c : Context} (h : (.context c.name c.entry c.keywords, .index j) ∈ calls)
      (hm : c.Mentions part i) : Mentioned part i
  | word (h : (.keywordContext name words, .index j) ∈ calls) (hw : w ∈ words) :
      Mentioned .keyword ((keywordTexts calls).idxOf w)
  | default : Mentioned .context (defaultContextOf calls)

/-- The calls make a grammar: there is a context, everything reserved is defined, and every index
that is mentioned was given out. -/
structure Complete : Prop where
  context : ∃ i, GivenOut calls .context i
  actions : ∀ i, (.reserve, .index i) ∈ calls → ∃ a, (.define i a, .done) ∈ calls
  rules : ∀ name i, (.reserveRule name, .index i) ∈ calls → ∃ r, (.defineRule i r, .done) ∈ calls
  mentioned : ∀ part i, Mentioned calls part i → GivenOut calls part i

/-- After the calls an operation is refused: a part is not defined where none was reserved, nor for
a second time, and a context needs a name of its own. -/
def Refuses : DraftOperation → Prop
  | .define i _ => ¬((.reserve, .index i) ∈ calls ∧ ∀ b, (.define i b, .done) ∉ calls)
  | .defineRule i _ =>
    ¬((∃ name, (.reserveRule name, .index i) ∈ calls) ∧ ∀ b, (.defineRule i b, .done) ∉ calls)
  | .context name _ _ =>
    ∃ c : Context, (∃ i, (.context c.name c.entry c.keywords, .index i) ∈ calls) ∧ c.name = name
  | _ => False

end Draft

/-- Every index that the calls gave out has in a grammar the meaning that they gave it. -/
structure Grammar.Denotes (calls : List DraftCall) (g : Grammar) : Prop where
  action_iff : ∀ i a, g.action i = .ok a ↔
    (.add a, .index i) ∈ calls ∨ (.reserve, .index i) ∈ calls ∧ (.define i a, .done) ∈ calls
  rule_iff : ∀ i r, g.rule i = .ok r ↔
    (.rule r, .index i) ∈ calls ∨
      (∃ name, (.reserveRule name, .index i) ∈ calls) ∧ (.defineRule i r, .done) ∈ calls
  context_iff : ∀ i c, g.context i = .ok c ↔
    (.context c.name c.entry c.keywords, .index i) ∈ calls
  contextNamed?_iff : ∀ name i, g.contextNamed? name = some i ↔
    ∃ c, g.context i = .ok c ∧ c.name = name
  keywordText : ∀ text i, (.keyword text, .index i) ∈ calls → g.keywordText i = .ok text
  keyword_eq_iff : ∀ text text' i j, (.keyword text, .index i) ∈ calls →
    (.keyword text', .index j) ∈ calls → (i = j ↔ text = text')
  keywordText_unique : ∀ text i j, g.keywordText i = .ok text → g.keywordText j = .ok text → i = j
  keywordContext : ∀ name words i, (.keywordContext name words, .index i) ∈ calls →
    ∃ k, g.keywordContext i = .ok k ∧ k.name = name ∧
      (∀ w ∈ words, ∃ id, k.lookup? w = some id ∧ g.keywordText id = .ok w) ∧
      ∀ w ∉ words, k.lookup? w = none

namespace Grammar

variable {g : Grammar} {i : Nat}

theorem action_ok_iff {a : Action} : g.action i = .ok a ↔ g.actions[i]? = some a := by
  unfold action
  split <;> simp [*]

theorem rule_ok_iff {r : Rule} : g.rule i = .ok r ↔ g.rules[i]? = some r := by
  unfold rule
  split <;> simp [*]

theorem context_ok_iff {c : Context} : g.context i = .ok c ↔ g.contexts[i]? = some c := by
  unfold context
  split <;> simp [*]

theorem keywordContext_ok_iff {k : KeywordContext} :
    g.keywordContext i = .ok k ↔ g.keywordContexts[i]? = some k := by
  unfold keywordContext
  split <;> simp [*]

theorem keywordText_ok_iff {text : String} :
    g.keywordText i = .ok text ↔ g.keywords[i]? = some text := by
  unfold keywordText
  split <;> simp [*]

end Grammar

namespace Draft.Keeps

variable {d : Draft} {calls : List DraftCall} {g : Grammar} {part : Part} {i : Nat}

theorem mem_actions (h : d.Keeps calls) {a : Action} : some a ∈ d.actions ↔
    ∃ i, (.add a, .index i) ∈ calls ∨ (.define i a, .done) ∈ calls := by
  simp only [Array.mem_iff_getElem?, h.actions.filled_iff]

theorem mem_rules (h : d.Keeps calls) {r : Rule} : (∃ name, (name, some r) ∈ d.rules) ↔
    ∃ i, (.rule r, .index i) ∈ calls ∨ (.defineRule i r, .done) ∈ calls := by
  have hmem : (∃ name, (name, some r) ∈ d.rules) ↔ some r ∈ d.rules.map (·.2) := by simp
  rw [hmem, Array.mem_iff_getElem?]
  simp only [h.rules.filled_iff]

theorem mem_contexts (h : d.Keeps calls) {c : Context} : c ∈ d.contexts ↔
    ∃ i, (.context c.name c.entry c.keywords, .index i) ∈ calls := by
  simp only [Array.mem_iff_getElem?, h.contexts]

theorem mentions_iff (h : d.Keeps calls) : d.Mentions part i ↔ Mentioned calls part i := by
  constructor
  · intro hm
    cases hm with
    | action ha hm =>
      obtain ⟨j, ha | ha⟩ := h.mem_actions.1 ha
      · exact .added ha hm
      · exact .defined ha hm
    | rule hr hm =>
      obtain ⟨j, hr | hr⟩ := h.mem_rules.1 ⟨_, hr⟩
      · exact .rule hr hm
      · exact .ruleDefined hr hm
    | context hc hm =>
      obtain ⟨j, hc⟩ := h.mem_contexts.1 hc
      exact .context hc hm
    | word hk hw =>
      obtain ⟨j, hj⟩ := Array.mem_iff_getElem?.1 hk
      obtain ⟨words, hc, hwords⟩ := (h.keywordContexts j _).1 hj
      rw [hwords, mem_knownWords] at hw
      obtain ⟨hw, rfl⟩ := hw
      exact .word hc hw
    | default =>
      rw [h.default]
      exact .default
  · intro hm
    cases hm with
    | added ha hm => exact .action (h.mem_actions.2 ⟨_, .inl ha⟩) hm
    | defined ha hm => exact .action (h.mem_actions.2 ⟨_, .inr ha⟩) hm
    | rule hr hm =>
      obtain ⟨_, hr⟩ := h.mem_rules.2 ⟨_, .inl hr⟩
      exact .rule hr hm
    | ruleDefined hr hm =>
      obtain ⟨_, hr⟩ := h.mem_rules.2 ⟨_, .inr hr⟩
      exact .rule hr hm
    | context hc hm => exact .context (h.mem_contexts.2 ⟨_, hc⟩) hm
    | word hc hw =>
      have hk := (h.keywordContexts _ ⟨_, knownWords (keywordTexts calls) _⟩).2 ⟨_, hc, rfl⟩
      exact .word (Array.mem_of_getElem? hk) (mem_knownWords.2 ⟨hw, rfl⟩)
    | default =>
      rw [← h.default]
      exact .default

theorem lt_count_iff (h : d.Keeps calls) : i < d.count part ↔ GivenOut calls part i := by
  have hsize : ∀ {α : Type} {xs : Array α}, i < xs.size ↔ ∃ x, xs[i]? = some x :=
    ⟨fun hi => ⟨_, Array.getElem?_eq_getElem hi⟩,
      fun ⟨_, hx⟩ => (Array.getElem?_eq_some_iff.1 hx).1⟩
  cases part with
  | action => exact h.actions.lt_size_iff
  | rule => simpa [count, GivenOut] using h.rules.lt_size_iff (i := i)
  | context => simp only [count, GivenOut, hsize, h.contexts]
  | keyword => simp [count, GivenOut, h.keywords]
  | keywordContext =>
    simp only [count, GivenOut, hsize, h.keywordContexts]
    constructor
    · rintro ⟨k, words, hc, -⟩
      exact ⟨k.name, words, hc⟩
    · rintro ⟨name, words, hc⟩
      exact ⟨⟨name, knownWords (keywordTexts calls) words⟩, words, hc, rfl⟩

/-- A draft becomes a grammar exactly if its calls make one. -/
theorem exists_build_iff (h : d.Keeps calls) : (∃ g, d.build = .ok g) ↔ Complete calls := by
  have hcontexts : d.contexts ≠ #[] ↔ ∃ i, GivenOut calls .context i := by
    simp only [← h.lt_count_iff]
    exact ⟨fun hc => ⟨0, Array.size_pos_iff.2 hc⟩,
      fun ⟨_, hi⟩ => Array.ne_empty_of_size_pos (Nat.zero_lt_of_lt hi)⟩
  rw [Draft.exists_build_iff, h.actions.none_notMem_iff, h.rules.none_notMem_iff, hcontexts]
  simp only [h.mentions_iff, h.lt_count_iff]
  constructor
  · rintro ⟨hc, ha, hr, hm⟩
    exact ⟨hc, ha, fun name i hn => hr i ⟨name, hn⟩, hm⟩
  · intro hc
    exact ⟨hc.context, hc.actions, fun i ⟨name, hn⟩ => hc.rules name i hn, hc.mentioned⟩

theorem contextNamed?_iff (h : d.Keeps calls) (hg : g.contexts = d.contexts) {name : String} :
    g.contextNamed? name = some i ↔ ∃ c, g.context i = .ok c ∧ c.name = name := by
  unfold Grammar.contextNamed?
  simp only [Grammar.context_ok_iff]
  rw [hg, Array.findIdx?_eq_some_iff_getElem]
  constructor
  · rintro ⟨hlt, hname, -⟩
    exact ⟨_, Array.getElem?_eq_getElem hlt, beq_iff_eq.1 hname⟩
  · rintro ⟨c, hc, rfl⟩
    obtain ⟨hlt, rfl⟩ := Array.getElem?_eq_some_iff.1 hc
    refine ⟨hlt, beq_self_eq_true _, fun j hj hname => Nat.ne_of_lt hj ?_⟩
    exact h.names j i _ _ (Array.getElem?_eq_getElem _) hc (beq_iff_eq.1 hname)

theorem keywordText_unique (hg : g.keywords = (keywordTexts calls).toArray) {text : String}
    {j : Nat} (hi : g.keywordText i = .ok text) (hj : g.keywordText j = .ok text) : i = j := by
  rw [Grammar.keywordText_ok_iff, hg, List.getElem?_toArray] at hi hj
  obtain ⟨hlt, -⟩ := List.getElem?_eq_some_iff.1 hi
  exact (List.getElem?_inj hlt (nodup_eraseDups _)).1 (hi.trans hj.symm)

theorem keywordText_idxOf (hg : g.keywords = (keywordTexts calls).toArray) {c : DraftCall}
    (hc : c ∈ calls) {text : String} (ht : text ∈ c.texts) :
    g.keywordText ((keywordTexts calls).idxOf text) = .ok text := by
  rw [Grammar.keywordText_ok_iff, hg, List.getElem?_toArray]
  exact List.getElem?_idxOf (mem_keywordTexts hc ht)

/-- The grammar gives every index the meaning that the calls gave it. -/
theorem denotes (h : d.Keeps calls) (hd : d.build = .ok g) : g.Denotes calls := by
  obtain ⟨-, ha, hr, hg, -⟩ := build_ok_iff.1 hd
  have hcontexts : g.contexts = d.contexts := by rw [hg]; rfl
  have hkeywords : g.keywords = (keywordTexts calls).toArray := by rw [← h.keywords, hg]; rfl
  have hkeywordContexts : g.keywordContexts = d.keywordContexts := by rw [hg]; rfl
  have htext : ∀ text i, (.keyword text, .index i) ∈ calls → g.keywordText i = .ok text := by
    intro text i hc
    rw [h.keyword text i hc]
    exact keywordText_idxOf hkeywords hc (List.mem_singleton_self text)
  refine ⟨fun i a => ?_, fun i r => ?_, fun i c => ?_, fun _ _ => h.contextNamed?_iff hcontexts,
    htext, fun text text' i j hi hj => ?_, fun _ _ _ => keywordText_unique hkeywords,
    fun name words i hc => ?_⟩
  · have hslot : d.actions[i]? = some (some a) ↔ g.actions[i]? = some a := by simp [ha]
    rw [Grammar.action_ok_iff, ← hslot, h.actions.filled_iff_reserved]
  · have hslot : (d.rules.map (·.2))[i]? = some (some r) ↔ g.rules[i]? = some r := by simp [hr]
    rw [Grammar.rule_ok_iff, ← hslot, h.rules.filled_iff_reserved]
  · rw [Grammar.context_ok_iff, hcontexts, h.contexts]
  · constructor
    · rintro rfl
      exact Except.ok.inj ((htext text i hi).symm.trans (htext text' i hj))
    · rintro rfl
      exact keywordText_unique hkeywords (htext text i hi) (htext text j hj)
  · refine ⟨⟨name, knownWords (keywordTexts calls) words⟩, ?_, rfl, fun w hw => ?_, fun w hw => ?_⟩
    · rw [Grammar.keywordContext_ok_iff, hkeywordContexts]
      exact (h.keywordContexts i _).2 ⟨words, hc, rfl⟩
    · refine ⟨(keywordTexts calls).idxOf w, ?_, keywordText_idxOf hkeywords hc hw⟩
      rw [KeywordContext.lookup?_knownWords, if_pos hw]
    · rw [KeywordContext.lookup?_knownWords, if_neg hw]

theorem define_refused_iff (h : d.Keeps calls) (a : Action) :
    (∃ e, (d.perform (.define i a)).1 = .refused e) ↔
      ¬((.reserve, .index i) ∈ calls ∧ ∀ b, (.define i b, .done) ∉ calls) := by
  rw [← h.actions.empty_iff]
  simp only [Draft.perform, define]
  split <;> simp [settle, Except.map, *]

theorem defineRule_refused_iff (h : d.Keeps calls) (r : Rule) :
    (∃ e, (d.perform (.defineRule i r)).1 = .refused e) ↔
      ¬((∃ name, (.reserveRule name, .index i) ∈ calls) ∧
        ∀ b, (.defineRule i b, .done) ∉ calls) := by
  rw [← h.rules.empty_iff]
  simp only [Draft.perform, defineRule]
  split <;> simp [settle, Except.map, *]

theorem context_refused_iff (h : d.Keeps calls) (name : String) (entry : ActionId)
    (keywords : Option KeywordContextId) :
    (∃ e, (d.perform (.context name entry keywords)).1 = .refused e) ↔
      ∃ c : Context, (∃ i, (.context c.name c.entry c.keywords, .index i) ∈ calls) ∧
        c.name = name := by
  have hany : d.contexts.any (fun c => c.name == name) = true ↔
      ∃ c : Context, (∃ i, (.context c.name c.entry c.keywords, .index i) ∈ calls) ∧
        c.name = name := by
    simp only [Array.any_eq_true', h.mem_contexts, beq_iff_eq]
  rw [← hany]
  simp only [Draft.perform, Draft.context]
  split <;> simp [settle, Except.map, *]

theorem refused_iff (h : d.Keeps calls) (op : DraftOperation) :
    (∃ e, (d.perform op).1 = .refused e) ↔ Refuses calls op := by
  cases op with
  | define i a => exact h.define_refused_iff a
  | defineRule i r => exact h.defineRule_refused_iff r
  | context name entry keywords => exact h.context_refused_iff name entry keywords
  | _ => exact iff_of_false (fun ⟨e, he⟩ => by cases he) id

theorem performAll_refused_iff {before after : List DraftCall} {op : DraftOperation}
    {answer : DraftAnswer} (h : d.Keeps calls) {ops : List DraftOperation}
    (hrun : (d.performAll ops).1 = before ++ (op, answer) :: after) :
    (∃ e, answer = .refused e) ↔ Refuses (calls ++ before) op := by
  induction before generalizing d calls ops with
  | nil =>
    cases ops with
    | nil => cases hrun
    | cons op' ops =>
      rw [performAll_cons, List.nil_append, List.cons.injEq, Prod.mk.injEq] at hrun
      obtain ⟨⟨rfl, rfl⟩, -⟩ := hrun
      rw [List.append_nil]
      exact h.refused_iff op'
  | cons c before ih =>
    cases ops with
    | nil => cases hrun
    | cons op' ops =>
      rw [performAll_cons, List.cons_append, List.cons.injEq] at hrun
      obtain ⟨rfl, hrest⟩ := hrun
      rw [List.append_cons]
      exact ih (h.perform op') hrest

end Draft.Keeps

namespace Draft

theorem performAll_operations (d : Draft) (ops : List DraftOperation) :
    (d.performAll ops).1.map (·.1) = ops := by
  induction ops generalizing d with
  | nil => rfl
  | cons op ops ih => exact congrArg (op :: ·) (ih _)

/-- Without a call that is refused, all other calls have the same answers and lead to the same
draft. -/
theorem Keeps.performAll_without_refused {d : Draft} {calls before after : List DraftCall}
    (h : d.Keeps calls) {ops : List DraftOperation} {op : DraftOperation} {e : GrammarError}
    (hrun : (d.performAll ops).1 = before ++ (op, .refused e) :: after) :
    d.performAll ((before ++ after).map (·.1)) = (before ++ after, (d.performAll ops).2) := by
  induction before generalizing d calls ops with
  | nil =>
    cases ops with
    | nil => cases hrun
    | cons op' ops =>
      rw [performAll_cons, List.nil_append, List.cons.injEq, Prod.mk.injEq] at hrun
      obtain ⟨⟨rfl, hrefused⟩, rfl⟩ := hrun
      have hp := performs h.keywords op'
      rw [hrefused] at hp
      rw [List.nil_append, performAll_operations, performAll_cons, hp.eq_of_refused]
  | cons c before ih =>
    cases ops with
    | nil => cases hrun
    | cons op' ops =>
      rw [performAll_cons, List.cons_append, List.cons.injEq] at hrun
      obtain ⟨rfl, hrest⟩ := hrun
      rw [List.cons_append, List.map_cons, performAll_cons, ih (h.perform op') hrest,
        performAll_cons]

/-- Operations on a new draft, in any order and with any indices. The draft becomes a grammar
exactly if there is a context, everything reserved is defined and every index that is mentioned was
given out. In the grammar every index means what was defined for it. A call that is refused changes
nothing, and the calls before it decide whether one is refused. -/
theorem build_sound_complete (systemId : String) (ops : List DraftOperation) :
    let calls := ((new systemId).performAll ops).1
    let d := ((new systemId).performAll ops).2
    calls.map (·.1) = ops ∧ ((∃ g, d.build = .ok g) ↔ Complete calls) ∧
      (∀ g, d.build = .ok g → g.Denotes calls) ∧
      (∀ before op e after, calls = before ++ (op, .refused e) :: after →
        (new systemId).performAll ((before ++ after).map (·.1)) = (before ++ after, d)) ∧
      ∀ before op answer after, calls = before ++ (op, answer) :: after →
        ((∃ e, answer = .refused e) ↔ Refuses before op) := by
  intro calls d
  have h : d.Keeps calls := keeps_performAll systemId ops
  refine ⟨performAll_operations _ ops, h.exists_build_iff, fun g => h.denotes, ?_, ?_⟩
  · intro before op e after
    exact (Keeps.new systemId).performAll_without_refused
  · intro before op answer after
    exact (Keeps.new systemId).performAll_refused_iff

/-- Parts that are used before they are defined, and three calls that are refused. -/
def sampleCalls : List DraftCall :=
  [(.reserve, .index 0),
   (.context "statement" 0 (some 0), .index 0),
   (.define 0 (.advance true 1), .done),
   (.define 0 (.done false), .refused (.actionRedefined 0)),
   (.add (.choice ⟨[], [(1, 3)], [], 2⟩), .index 1),
   (.add (.done true), .index 2),
   (.add (.call 0 2 2), .index 3),
   (.reserveRule "block", .index 0),
   (.context "statement" 2 none, .refused (.duplicateContext "statement")),
   (.keywordContext "words" ["if", "else", "if"], .index 0),
   (.keyword "else", .index 1),
   (.defineRule 0 ⟨"block", .block 0, false, none, false⟩, .done),
   (.defineRule 4 ⟨"other", .actions 0, false, none, false⟩, .refused (.undefinedRule "other"))]

theorem sample_builds : Complete sampleCalls ∧
    ∃ g, ((new "sample").performAll (sampleCalls.map (·.1))).2.build = .ok g ∧
      g.action 0 = .ok (.advance true 1) ∧ g.action 1 = .ok (.choice ⟨[], [(1, 3)], [], 2⟩) ∧
      g.rule 0 = .ok ⟨"block", .block 0, false, none, false⟩ ∧
      g.contextNamed? "statement" = some 0 ∧ g.keywordText 1 = .ok "else" ∧
      ∃ k, g.keywordContext 0 = .ok k ∧ k.lookup? "then" = none := by
  have hcalls : ((new "sample").performAll (sampleCalls.map (·.1))).1 = sampleCalls := by
    decide +kernel
  have hok : (((new "sample").performAll (sampleCalls.map (·.1))).2.build).isOk = true := by
    decide +kernel
  cases hg : ((new "sample").performAll (sampleCalls.map (·.1))).2.build with
  | error e =>
    rw [hg] at hok
    cases hok
  | ok g =>
    obtain ⟨-, hcomplete, hdenotes, -⟩ := build_sound_complete "sample" (sampleCalls.map (·.1))
    rw [hcalls] at hcomplete hdenotes
    have h := hdenotes g hg
    obtain ⟨k, hk, -, -, hunknown⟩ := h.keywordContext "words" ["if", "else", "if"] 0
      (by simp [sampleCalls])
    refine ⟨hcomplete.1 ⟨g, hg⟩, g, rfl, (h.action_iff 0 _).2 (.inr ⟨?_, ?_⟩),
      (h.action_iff 1 _).2 (.inl ?_), (h.rule_iff 0 _).2 (.inr ⟨⟨"block", ?_⟩, ?_⟩),
      (h.contextNamed?_iff _ 0).2 ⟨⟨"statement", 0, some 0⟩, (h.context_iff 0 _).2 ?_, rfl⟩,
      h.keywordText "else" 1 ?_, k, hk, hunknown "then" (by simp)⟩
    all_goals simp [sampleCalls]

end Draft

end TermStream
