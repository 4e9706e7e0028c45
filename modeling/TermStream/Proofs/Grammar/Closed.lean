import TermStream.Grammar.Standard

namespace TermStream

theorem ChoiceTable.select_mem_targets (c : ChoiceTable) (kind : PhraseKind)
    (key : Option TokenKey) (keyword : Option KeywordId) :
    c.select kind key keyword ∈ c.targets := by
  have hfound : ∀ {κ : Type} [DecidableEq κ] (table : List (κ × ActionId)) (k : κ) (id : ActionId),
      targetOf? table k = some id → id ∈ table.map (·.2) := by
    intro κ _ table k id h
    obtain ⟨t, ht, rfl⟩ := Option.map_eq_some_iff.1 h
    exact List.mem_map_of_mem (List.mem_of_find?_eq_some ht)
  unfold select
  have hspecial : ∀ id, (if kind = .significant then c.significant? key keyword else none) =
      some id → id ∈ c.targets := by
    intro id h
    split at h
    · unfold significant? at h
      simp only [targets, List.mem_append]
      rcases Option.or_eq_some_iff.1 h with h | ⟨-, h⟩
      · obtain ⟨k, -, hk⟩ := Option.bind_eq_some_iff.1 h
        exact .inl (.inl (.inr (hfound _ _ _ hk)))
      · obtain ⟨k, -, hk⟩ := Option.bind_eq_some_iff.1 h
        rcases Option.or_eq_some_iff.1 hk with hk | ⟨-, hk⟩
        · exact .inl (.inr (hfound _ _ _ hk))
        · exact .inl (.inr (hfound _ _ _ hk))
    · cases h
  generalize (if kind = .significant then c.significant? key keyword else none) = special
    at hspecial ⊢
  cases special with
  | some id => exact hspecial id rfl
  | none =>
    cases hk : targetOf? c.kinds kind with
    | none => simp [targets]
    | some id =>
      simp only [Option.none_or, Option.getD_some, targets, List.mem_append]
      exact .inl (.inl (.inl (hfound _ _ _ hk)))

theorem filterMap_eq_iff_map_eq {α β : Type} {f : α → Option β} {xs : Array α}
    (h : ∀ x ∈ xs, f x ≠ none) {ys : Array β} : xs.filterMap f = ys ↔ xs.map f = ys.map some := by
  obtain ⟨l⟩ := xs
  obtain ⟨l'⟩ := ys
  simp only [List.filterMap_toArray, List.map_toArray, Array.mk.injEq]
  simp only [List.mem_toArray] at h
  induction l generalizing l' with
  | nil => cases l' <;> simp
  | cons x l ih =>
    obtain ⟨b, hb⟩ := Option.ne_none_iff_exists'.1 (h x List.mem_cons_self)
    have hrest := fun l' => ih l' fun y hy => h y (List.mem_cons_of_mem x hy)
    cases l' with
    | nil => simp [hb]
    | cons c l' => simp [hb, hrest]

namespace Draft

variable {d : Draft} {g : Grammar}

theorem definedActions_ok_iff {actions : Array Action} :
    d.definedActions = .ok actions ↔ d.actions = actions.map some := by
  unfold definedActions
  split
  · next i hi =>
    refine ⟨nofun, fun h => ?_⟩
    obtain ⟨_, hnone, -⟩ := Array.findIdx?_eq_some_iff_getElem.1 hi
    simp [h] at hnone
  · next hn =>
    have hsome : ∀ a ∈ d.actions, id a ≠ none := by
      simpa [Option.isSome_iff_ne_none] using Array.findIdx?_eq_none_iff.1 hn
    simpa using filterMap_eq_iff_map_eq hsome

theorem definedRules_ok_iff {rules : Array Rule} :
    d.definedRules = .ok rules ↔ d.rules.map (·.2) = rules.map some := by
  unfold definedRules
  split
  · next name r hr =>
    refine ⟨nofun, fun h => ?_⟩
    have hnone : r = none := by simpa using Array.find?_some hr
    have hmem := Array.mem_map_of_mem (f := (·.2)) (Array.mem_of_find?_eq_some hr)
    simp [h, hnone] at hmem
  · next hn =>
    have hsome : ∀ r ∈ d.rules, r.2 ≠ none := by
      simpa using Array.find?_eq_none.1 hn
    simpa using filterMap_eq_iff_map_eq hsome

def frozen (d : Draft) (actions : Array Action) (rules : Array Rule) : Grammar :=
  ⟨d.systemId, d.isScript, actions, rules, d.contexts, d.defaultContext.getD 0, d.keywords,
    d.keywordContexts, d.errors⟩

/-- A draft becomes the grammar of its parts, if it has a context, nothing is only reserved and
every reference leads to something. -/
theorem build_ok_iff :
    d.build = .ok g ↔ d.contexts ≠ #[] ∧ d.actions = g.actions.map some ∧
      d.rules.map (·.2) = g.rules.map some ∧ g = d.frozen g.actions g.rules ∧
      g.dangling? = none := by
  rw [← definedActions_ok_iff, ← definedRules_ok_iff]
  unfold build
  constructor
  · intro h
    split at h
    · cases h
    · next hc =>
      simp only [bind, Except.bind, pure, Except.pure] at h
      split at h
      · cases h
      · next actions ha =>
        split at h
        · cases h
        · next rules hr =>
          split at h
          · cases h
          · next hg =>
            cases h
            exact ⟨by simpa using hc, ha, hr, rfl, hg⟩
  · rintro ⟨hc, ha, hr, hg, hd⟩
    have he : d.contexts.isEmpty = false := by simpa using hc
    simp only [he, ha, hr, bind, Except.bind, Bool.false_eq_true, if_false]
    split
    · next r hr =>
      have hsome : (d.frozen g.actions g.rules).dangling? = some r := hr
      rw [← hg, hd] at hsome
      cases hsome
    · exact congrArg Except.ok hg.symm

end Draft

namespace Grammar

variable {g : Grammar}

/-- Some draft becomes the grammar. -/
def Built (g : Grammar) : Prop := ∃ d : Draft, d.build = .ok g

theorem Built.dangling?_eq (h : g.Built) : g.dangling? = none := by
  obtain ⟨d, hd⟩ := h
  exact (Draft.build_ok_iff.1 hd).2.2.2.2

def toDraft (g : Grammar) : Draft :=
  ⟨g.systemId, g.isScript, g.actions.map some, g.rules.map (fun r => (r.name, some r)), g.contexts,
    some g.defaultContext, g.keywords, g.keywordContexts, g.errors⟩

theorem built_of_dangling? (h : g.dangling? = none) : g.Built := by
  have hdefault : g.defaultContext < g.count .context := by
    have hn := List.find?_eq_none.1 h ⟨.grammar, .context, g.defaultContext⟩ (by simp [references])
    simpa using hn
  have hne : g.contexts ≠ #[] := Array.ne_empty_of_size_pos (Nat.zero_lt_of_lt hdefault)
  have hrules : g.toDraft.rules.map (·.2) = g.rules.map some := by simp [toDraft]
  exact ⟨g.toDraft, Draft.build_ok_iff.2 ⟨hne, rfl, hrules, rfl, h⟩⟩

theorem Built.withLoadErrors (h : g.Built) (errors : ErrorChain) :
    (g.withLoadErrors errors).Built :=
  built_of_dangling? h.dangling?_eq

theorem built_standard (script : Bool) : (standard script).Built :=
  built_of_dangling? (dangling?_standard script)

theorem Built.index_lt (h : g.Built) {r : PartReference} (hr : r ∈ g.references) :
    r.target.index < g.count r.target.part := by
  have hn := List.find?_eq_none.1 h.dangling?_eq r hr
  simpa using hn

theorem action_ok {id : ActionId} {a : Action} (h : g.action id = .ok a) :
    (a, id) ∈ g.actions.toList.zipIdx := by
  unfold action at h
  split at h
  · next ha =>
    cases h
    rw [List.mem_zipIdx_iff_getElem?]
    simpa using ha
  · cases h

theorem exists_action {id : ActionId} (h : id < g.actions.size) : ∃ a, g.action id = .ok a := by
  unfold action
  rw [Array.getElem?_eq_getElem h]
  exact ⟨_, rfl⟩

theorem exists_rule {id : RuleId} (h : id < g.rules.size) : ∃ r, g.rule id = .ok r := by
  unfold rule
  rw [Array.getElem?_eq_getElem h]
  exact ⟨_, rfl⟩

theorem exists_context {id : ContextId} (h : id < g.contexts.size) :
    ∃ c, g.context id = .ok c := by
  unfold context
  rw [Array.getElem?_eq_getElem h]
  exact ⟨_, rfl⟩

theorem exists_classify {id : KeywordContextId} (h : id < g.keywordContexts.size) (p : Phrase) :
    ∃ keyword, g.classify id p = .ok keyword := by
  unfold classify
  cases p.token with
  | none => exact ⟨_, rfl⟩
  | some t =>
    unfold keywordContext
    rw [Array.getElem?_eq_getElem h]
    exact ⟨_, rfl⟩

theorem Built.successor_lt (h : g.Built) {id : ActionId} {a : Action} (ha : g.action id = .ok a)
    {next : ActionId} (hn : next ∈ a.successors) : next < g.actions.size := by
  apply h.index_lt (r := ⟨.action id, .action, next⟩)
  have hr : (⟨.action id, .action, next⟩ : PartReference) ∈ actionReferences id a :=
    List.mem_append_left _ (List.mem_map.2 ⟨next, hn, rfl⟩)
  simp only [references, List.mem_append, List.mem_flatMap]
  exact .inl (.inl (.inl (.inl ⟨_, action_ok ha, hr⟩)))

theorem Built.select_lt (h : g.Built) {id : ActionId} {table : ChoiceTable}
    (ha : g.action id = .ok (.choice table)) (kind : PhraseKind) (key : Option TokenKey)
    (keyword : Option KeywordId) : table.select kind key keyword < g.actions.size :=
  h.successor_lt ha (table.select_mem_targets kind key keyword)

theorem Built.called_lt (h : g.Built) {id : ActionId} {rule : RuleId} {success failure : ActionId}
    (ha : g.action id = .ok (.call rule success failure)) : rule < g.rules.size := by
  apply h.index_lt (r := ⟨.action id, .rule, rule⟩)
  have hr : (⟨.action id, .rule, rule⟩ : PartReference) ∈
      actionReferences id (.call rule success failure) :=
    List.mem_append_right _ (List.mem_singleton.2 rfl)
  simp only [references, List.mem_append, List.mem_flatMap]
  exact .inl (.inl (.inl (.inl ⟨_, action_ok ha, hr⟩)))

theorem rule_ok {id : RuleId} {r : Rule} (h : g.rule id = .ok r) : r ∈ g.rules.toList := by
  unfold rule at h
  split at h
  · next hr =>
    cases h
    exact Array.mem_toList_iff.2 (Array.mem_of_getElem? hr)
  · cases h

theorem Built.rule_lt (h : g.Built) {id : RuleId} {r : Rule} (hr : g.rule id = .ok r)
    {t : PartReference} (ht : t ∈ ruleReferences r) : t.target.index < g.count t.target.part := by
  apply h.index_lt
  simp only [references, List.mem_append, List.mem_flatMap]
  exact .inl (.inl (.inl (.inr ⟨r, rule_ok hr, ht⟩)))

theorem Built.entry_lt (h : g.Built) {id : RuleId} {r : Rule} {entry : ActionId}
    (hr : g.rule id = .ok r) (hb : r.body = .actions entry) : entry < g.actions.size := by
  apply h.rule_lt hr (t := ⟨.rule r.name, .action, entry⟩)
  simp [ruleReferences, hb]

theorem Built.blockContext_lt (h : g.Built) {id : RuleId} {r : Rule} {context : ContextId}
    (hr : g.rule id = .ok r) (hb : r.body = .block context) : context < g.contexts.size := by
  apply h.rule_lt hr (t := ⟨.rule r.name, .context, context⟩)
  simp [ruleReferences, hb]

theorem Built.ruleKeywords_lt (h : g.Built) {id : RuleId} {r : Rule} {k : KeywordContextId}
    (hr : g.rule id = .ok r) (hk : r.keywords = some k) : k < g.keywordContexts.size := by
  apply h.rule_lt hr (t := ⟨.rule r.name, .keywordContext, k⟩)
  simp [ruleReferences, hk]

theorem context_ok {id : ContextId} {c : Context} (h : g.context id = .ok c) :
    c ∈ g.contexts.toList := by
  unfold context at h
  split at h
  · next hc =>
    cases h
    exact Array.mem_toList_iff.2 (Array.mem_of_getElem? hc)
  · cases h

theorem Built.context_lt (h : g.Built) {id : ContextId} {c : Context} (hc : g.context id = .ok c)
    {t : PartReference} (ht : t ∈ contextReferences c) :
    t.target.index < g.count t.target.part := by
  apply h.index_lt
  simp only [references, List.mem_append, List.mem_flatMap]
  exact .inl (.inl (.inr ⟨c, context_ok hc, ht⟩))

theorem Built.contextEntry_lt (h : g.Built) {id : ContextId} {c : Context}
    (hc : g.context id = .ok c) : c.entry < g.actions.size :=
  h.context_lt hc (t := ⟨.context c.name, .action, c.entry⟩) List.mem_cons_self

theorem Built.contextKeywords_lt (h : g.Built) {id : ContextId} {c : Context}
    {k : KeywordContextId} (hc : g.context id = .ok c) (hk : c.keywords = some k) :
    k < g.keywordContexts.size := by
  apply h.context_lt hc (t := ⟨.context c.name, .keywordContext, k⟩)
  simp [contextReferences, hk]

theorem Built.defaultContext_lt (h : g.Built) : g.defaultContext < g.contexts.size := by
  apply h.index_lt (r := ⟨.grammar, .context, g.defaultContext⟩)
  simp [references]

theorem contextNamed?_lt {name : String} {id : ContextId} (h : g.contextNamed? name = some id) :
    id < g.contexts.size :=
  (Array.findIdx?_eq_some_iff_getElem.1 h).1

end Grammar

end TermStream
