import Mathlib.Tactic.MkIffOfInductiveProp
import TermStream.Proofs.Grammar.Closed

namespace TermStream

/-- The index of a part stands at some place in an action. -/
inductive Action.Mentions : Action → Part → Nat → Prop
  | advance : Mentions (.advance skip i) .action i
  | called : Mentions (.call i yes no) .rule i
  | succeeded : Mentions (.call rule i no) .action i
  | failed : Mentions (.call rule yes i) .action i
  | onKind (h : (kind, i) ∈ table.kinds) : Mentions (.choice table) .action i
  | keyword (h : (i, target) ∈ table.keywords) : Mentions (.choice table) .keyword i
  | onKeyword (h : (keyword, i) ∈ table.keywords) : Mentions (.choice table) .action i
  | onToken (h : (key, i) ∈ table.tokens) : Mentions (.choice table) .action i
  | unmatched : Mentions (.choice table) .action table.unmatched
  | report : Mentions (.report kind role name consume i) .action i
  | reportBefore : Mentions (.reportBefore kind name i) .action i
  | reportError : Mentions (.reportError code args i) .action i
  | test : Mentions (.recoverySetup i next) .action i
  | afterSetup : Mentions (.recoverySetup test i) .action i
  | resume : Mentions (.recoveryVote i next) .action i
  | unasked : Mentions (.recoveryVote resume i) .action i
  | normal : Mentions (.recoveryChoice i recovery) .action i
  | recovery : Mentions (.recoveryChoice normal i) .action i
  | popKeywords : Mentions (.popKeywords i) .action i

@[mk_iff]
inductive Rule.Mentions (r : Rule) : Part → Nat → Prop
  | entry (h : r.body = .actions i) : Mentions r .action i
  | block (h : r.body = .block i) : Mentions r .context i
  | keywords (h : r.keywords = some i) : Mentions r .keywordContext i

@[mk_iff]
inductive Context.Mentions (c : Context) : Part → Nat → Prop
  | entry : Mentions c .action c.entry
  | keywords (h : c.keywords = some i) : Mentions c .keywordContext i

@[mk_iff]
inductive Draft.Mentions (d : Draft) : Part → Nat → Prop
  | action (h : some a ∈ d.actions) (hm : a.Mentions part i) : Mentions d part i
  | rule (h : (name, some r) ∈ d.rules) (hm : r.Mentions part i) : Mentions d part i
  | context (h : c ∈ d.contexts) (hm : c.Mentions part i) : Mentions d part i
  | word (h : k ∈ d.keywordContexts) (hw : (w, i) ∈ k.words) : Mentions d .keyword i
  | default : Mentions d .context (d.defaultContext.getD 0)

variable {part : Part} {i : Nat}

theorem ChoiceTable.mem_targets {c : ChoiceTable} : i ∈ c.targets ↔ (∃ kind, (kind, i) ∈ c.kinds) ∨
    (∃ keyword, (keyword, i) ∈ c.keywords) ∨ (∃ key, (key, i) ∈ c.tokens) ∨ i = c.unmatched := by
  simp [targets]

theorem Action.mem_successors {a : Action} : i ∈ a.successors ↔ a.Mentions .action i := by
  constructor
  · intro h
    cases a with
    | choice table =>
      obtain ⟨kind, h⟩ | ⟨keyword, h⟩ | ⟨key, h⟩ | rfl := ChoiceTable.mem_targets.1 h
      · exact .onKind h
      · exact .onKeyword h
      · exact .onToken h
      · exact .unmatched
    | call | recoverySetup | recoveryVote | recoveryChoice =>
      obtain rfl | rfl := by simpa [successors] using h
      all_goals constructor
    | done => cases h
    | _ => cases List.mem_singleton.1 h; constructor
  · intro h
    cases h with
    | onKind h => exact ChoiceTable.mem_targets.2 (.inl ⟨_, h⟩)
    | onKeyword h => exact ChoiceTable.mem_targets.2 (.inr (.inl ⟨_, h⟩))
    | onToken h => exact ChoiceTable.mem_targets.2 (.inr (.inr (.inl ⟨_, h⟩)))
    | unmatched => exact ChoiceTable.mem_targets.2 (.inr (.inr (.inr rfl)))
    | _ => simp [successors]

theorem Action.mem_actionReferences {a : Action} {id : ActionId} :
    ⟨part, i⟩ ∈ (Grammar.actionReferences id a).map (·.target) ↔ a.Mentions part i := by
  have hsplit : ⟨part, i⟩ ∈ (Grammar.actionReferences id a).map (·.target) ↔
      (.action = part ∧ i ∈ a.successors) ∨ (.rule = part ∧ ∃ yes no, a = .call i yes no) ∨
      .keyword = part ∧ ∃ table, a = .choice table ∧ ∃ target, (i, target) ∈ table.keywords := by
    cases a with
    | call => simp [Grammar.actionReferences, and_left_comm, eq_comm (a := i), eq_comm (b := part)]
    | choice => simp [Grammar.actionReferences, and_left_comm]
    | _ => simp [Grammar.actionReferences, and_left_comm]
  rw [hsplit, mem_successors]
  constructor
  · rintro (⟨rfl, h⟩ | ⟨rfl, yes, no, rfl⟩ | ⟨rfl, table, rfl, target, h⟩)
    · exact h
    · exact .called
    · exact .keyword h
  · intro h
    cases part with
    | action => exact .inl ⟨rfl, h⟩
    | rule => cases h; exact .inr (.inl ⟨rfl, _, _, rfl⟩)
    | keyword => cases h with | keyword h => exact .inr (.inr ⟨rfl, _, rfl, _, h⟩)
    | context => cases h
    | keywordContext => cases h

theorem Rule.mem_ruleReferences {r : Rule} :
    ⟨part, i⟩ ∈ (Grammar.ruleReferences r).map (·.target) ↔ r.Mentions part i := by
  rw [mentions_iff]
  obtain ⟨name, body, marked, keywords, soft⟩ := r
  cases body <;> cases keywords <;> simp [Grammar.ruleReferences, eq_comm, and_comm]

theorem Context.mem_contextReferences {c : Context} :
    ⟨part, i⟩ ∈ (Grammar.contextReferences c).map (·.target) ↔ c.Mentions part i := by
  rw [mentions_iff]
  cases h : c.keywords <;> simp [Grammar.contextReferences, h, eq_comm, and_comm]

theorem KeywordContext.mem_keywordReferences {k : KeywordContext} :
    ⟨part, i⟩ ∈ (Grammar.keywordReferences k).map (·.target) ↔
      (∃ w, (w, i) ∈ k.words) ∧ .keyword = part := by
  rw [and_comm]
  simp [Grammar.keywordReferences, and_left_comm]

namespace Draft

variable {d : Draft} {g : Grammar}

def count (d : Draft) : Part → Nat
  | .action => d.actions.size
  | .rule => d.rules.size
  | .context => d.contexts.size
  | .keyword => d.keywords.size
  | .keywordContext => d.keywordContexts.size

theorem mem_references (ha : d.actions = g.actions.map some)
    (hr : d.rules.map (·.2) = g.rules.map some) (hg : g = d.frozen g.actions g.rules) :
    ⟨part, i⟩ ∈ g.references.map (·.target) ↔ d.Mentions part i := by
  have hactions : (∃ a ∈ g.actions.toList.zipIdx, a.1.Mentions part i) ↔
      ∃ a, some a ∈ d.actions ∧ a.Mentions part i := by
    simp [ha, List.mem_zipIdx_iff_getElem?, Array.mem_iff_getElem?]
  have hrules : (∃ r ∈ g.rules.toList, r.Mentions part i) ↔
      ∃ name r, (name, some r) ∈ d.rules ∧ r.Mentions part i := by
    have hmem : ∀ r, r ∈ g.rules ↔ ∃ name, (name, some r) ∈ d.rules := by
      intro r
      have hsome : some r ∈ d.rules.map (·.2) ↔ some r ∈ g.rules.map some := by rw [hr]
      simpa using hsome.symm
    constructor
    · rintro ⟨r, h, hm⟩
      obtain ⟨name, h⟩ := (hmem r).1 (Array.mem_toList_iff.1 h)
      exact ⟨name, r, h, hm⟩
    · rintro ⟨name, r, h, hm⟩
      exact ⟨r, Array.mem_toList_iff.2 ((hmem r).2 ⟨name, h⟩), hm⟩
  have hcontexts : g.contexts = d.contexts := by rw [hg]; rfl
  have hkeywords : g.keywordContexts = d.keywordContexts := by rw [hg]; rfl
  have hdefault : g.defaultContext = d.defaultContext.getD 0 := by rw [hg]; rfl
  simp only [Grammar.references, List.map_append, List.mem_append, List.map_flatMap,
    List.mem_flatMap, Action.mem_actionReferences, Rule.mem_ruleReferences,
    Context.mem_contextReferences, KeywordContext.mem_keywordReferences, hactions, hrules]
  rw [mentions_iff]
  simp [hcontexts, hkeywords, hdefault, or_assoc, eq_comm (a := part)]

theorem count_eq (ha : d.actions = g.actions.map some)
    (hr : d.rules.map (·.2) = g.rules.map some) (hg : g = d.frozen g.actions g.rules) :
    g.count part = d.count part := by
  cases part with
  | action => simp [Grammar.count, count, ha]
  | rule => simpa [Grammar.count, count] using (congrArg Array.size hr).symm
  | context | keyword | keywordContext => rw [hg]; rfl

/-- A draft becomes a grammar exactly if it has a context, nothing in it is only reserved and it has
every part that it mentions. -/
theorem exists_build_iff :
    (∃ g, d.build = .ok g) ↔ d.contexts ≠ #[] ∧ none ∉ d.actions ∧ none ∉ d.rules.map (·.2) ∧
      ∀ part i, d.Mentions part i → i < d.count part := by
  have hclosed : ∀ g : Grammar, g.dangling? = none ↔
      ∀ t ∈ g.references.map (·.target), t.index < g.count t.part := by
    simp [Grammar.dangling?, List.find?_eq_none]
  constructor
  · rintro ⟨g, h⟩
    obtain ⟨hc, ha, hr, hg, hd⟩ := build_ok_iff.1 h
    refine ⟨hc, by simp [ha], by simp [hr], fun part i hm => ?_⟩
    rw [← count_eq ha hr hg]
    exact (hclosed g).1 hd ⟨part, i⟩ ((mem_references ha hr hg).2 hm)
  · rintro ⟨hc, ha, hr, hm⟩
    obtain ⟨actions, hactions⟩ : ∃ actions : Array Action, d.actions = actions.map some := by
      have hsome := (filterMap_eq_iff_map_eq (f := id)
        (fun _ h => ne_of_mem_of_not_mem h ha)).1 rfl
      exact ⟨_, by rwa [Array.map_id] at hsome⟩
    obtain ⟨rules, hrules⟩ : ∃ rules : Array Rule, d.rules.map (·.2) = rules.map some :=
      ⟨_, (filterMap_eq_iff_map_eq
        (fun _ h => ne_of_mem_of_not_mem (Array.mem_map_of_mem h) hr)).1 rfl⟩
    refine ⟨d.frozen actions rules, build_ok_iff.2
      ⟨hc, hactions, hrules, rfl, (hclosed _).2 fun t ht => ?_⟩⟩
    rw [count_eq hactions hrules rfl]
    exact hm t.part t.index ((mem_references hactions hrules rfl).1 ht)

end Draft

end TermStream
