import TermStream.Proofs.Interpreter.OwnKeywords

namespace TermStream

/-- A recovery test comes from one action to another in some number of steps. -/
inductive Grammar.Walks (g : Grammar) (p : Phrase) (keyword : Option KeywordId) :
    ActionId → Nat → ActionId → Prop where
  | start (id : ActionId) : Walks g p keyword id 0 id
  | advance {id next last : ActionId} {skipDocComments : Bool} {n : Nat}
      (ha : g.action id = .ok (.advance skipDocComments next))
      (h : Walks g p keyword next n last) : Walks g p keyword id (n + 1) last
  | choice {id last : ActionId} {table : ChoiceTable} {n : Nat}
      (ha : g.action id = .ok (.choice table))
      (h : Walks g p keyword (table.select p.kind (p.token.map Token.key) keyword) n last) :
      Walks g p keyword id (n + 1) last

section
variable {g : Grammar} {p : Phrase} {keyword : Option KeywordId} {id mid last : ActionId}
  {m n : Nat}

namespace Grammar.Walks

theorem trans (h : g.Walks p keyword id m mid) (h' : g.Walks p keyword mid n last) :
    g.Walks p keyword id (m + n) last := by
  induction h with
  | start id => exact (Nat.zero_add n).symm ▸ h'
  | advance ha h ih => exact (Nat.succ_add _ n) ▸ advance ha (ih h')
  | choice ha h ih => exact (Nat.succ_add _ n) ▸ choice ha (ih h')

theorem exists_shorter (h : g.Walks p keyword id n last) (hm : m ≤ n) :
    ∃ mid, g.Walks p keyword id m mid := by
  induction h generalizing m with
  | start id =>
    obtain rfl := Nat.le_zero.1 hm
    exact ⟨id, start id⟩
  | @advance id next last skipDocComments n ha h ih =>
    cases m with
    | zero => exact ⟨id, start id⟩
    | succ m =>
      obtain ⟨mid, hmid⟩ := ih (Nat.le_of_succ_le_succ hm)
      exact ⟨mid, advance ha hmid⟩
  | @choice id last table n ha h ih =>
    cases m with
    | zero => exact ⟨id, start id⟩
    | succ m =>
      obtain ⟨mid, hmid⟩ := ih (Nat.le_of_succ_le_succ hm)
      exact ⟨mid, choice ha hmid⟩

/-- A circle can be walked any number of times. -/
theorem rounds (h : g.Walks p keyword id n id) (k : Nat) : g.Walks p keyword id (n * k) id := by
  induction k with
  | zero => exact start id
  | succ k ih => exact ih.trans h

theorem exists_of_circle (h : g.Walks p keyword id m mid)
    (hc : g.Walks p keyword mid (n + 1) mid) (k : Nat) :
    ∃ last, g.Walks p keyword id k last := by
  apply (h.trans (hc.rounds k)).exists_shorter
  calc k ≤ (n + 1) * k := Nat.le_mul_of_pos_left k n.succ_pos
    _ ≤ m + (n + 1) * k := Nat.le_add_left _ m

theorem testVote_eq {fuel : Nat} {resume next : ActionId} (h : g.Walks p keyword id n last)
    (hn : n < fuel) (hv : g.action last = .ok (.recoveryVote resume next)) :
    testVote g p keyword fuel id = .ok (some resume) := by
  induction h generalizing fuel with
  | start id =>
    cases fuel with
    | zero => cases hn
    | succ fuel => rw [testVote, hv]; rfl
  | advance ha h ih =>
    cases fuel with
    | zero => cases hn
    | succ fuel =>
      rw [testVote, ha]
      exact ih (Nat.lt_of_succ_lt_succ hn) hv
  | choice ha h ih =>
    cases fuel with
    | zero => cases hn
    | succ fuel =>
      rw [testVote, ha]
      exact ih (Nat.lt_of_succ_lt_succ hn) hv

/-- A test that can walk until its fuel is used up does not vote. -/
theorem testVote_eq_none {fuel : Nat} (h : g.Walks p keyword id fuel last) :
    testVote g p keyword fuel id = .ok none := by
  induction h with
  | start id => rfl
  | advance ha h ih => rw [testVote, ha]; exact ih
  | choice ha h ih => rw [testVote, ha]; exact ih

end Grammar.Walks

theorem exists_walk_of_testVote {fuel : Nat} {resume : ActionId}
    (h : testVote g p keyword fuel id = .ok (some resume)) :
    ∃ n last next, n < fuel ∧ g.Walks p keyword id n last ∧
      g.action last = .ok (.recoveryVote resume next) := by
  induction fuel generalizing id with
  | zero => cases h
  | succ fuel ih =>
    rw [testVote] at h
    cases ha : g.action id with
    | error m => rw [ha] at h; cases h
    | ok a =>
      rw [ha] at h
      cases a with
      | advance skipDocComments next =>
        obtain ⟨n, last, next, hn, hw, hv⟩ := ih h
        exact ⟨n + 1, last, next, Nat.succ_lt_succ hn, .advance ha hw, hv⟩
      | choice table =>
        obtain ⟨n, last, next, hn, hw, hv⟩ := ih h
        exact ⟨n + 1, last, next, Nat.succ_lt_succ hn, .choice ha hw, hv⟩
      | recoveryVote choice next =>
        cases h
        exact ⟨0, id, next, fuel.succ_pos, .start id, ha⟩
      | _ => cases h

end

namespace RuleFrame

/-- The recovery test of the frame walks to a vote in time when it sees this keyword. -/
def VotesFor (f : RuleFrame) (p : Phrase) (keyword : Option KeywordId) (resume : ActionId) : Prop :=
  ∃ test n last next, f.recoveryTest = some test ∧ n < maxTestSteps ∧
    f.grammar.Walks p keyword test n last ∧ f.grammar.action last = .ok (.recoveryVote resume next)

/-- The recovery test of the frame comes to a circle, or walks more actions than a test may take. -/
def TestsForever (f : RuleFrame) (p : Phrase) (keyword : Option KeywordId) : Prop :=
  ∃ test, f.recoveryTest = some test ∧
    ((∃ m n id, f.grammar.Walks p keyword test m id ∧ f.grammar.Walks p keyword id (n + 1) id) ∨
      ∃ last, f.grammar.Walks p keyword test maxTestSteps last)

variable {f : RuleFrame} {ws : Workspace} {p : Phrase} {keyword : Option KeywordId}
  {resume test : ActionId}

theorem vote_eq_testVote (ht : f.recoveryTest = some test)
    (hk : f.testKeyword ws p = .ok keyword) :
    f.vote ws p = testVote f.grammar p keyword maxTestSteps test := by
  rw [testKeyword] at hk
  simp only [vote, ht, hk, bind, Except.bind]

theorem vote_eq_some_iff : f.vote ws p = .ok (some resume) ↔
    ∃ keyword, f.testKeyword ws p = .ok keyword ∧ f.VotesFor p keyword resume := by
  constructor
  · intro h
    cases ht : f.recoveryTest with
    | none =>
      rw [vote, ht] at h
      cases h
    | some test =>
      cases hk : f.testKeyword ws p with
      | error m =>
        rw [testKeyword] at hk
        simp only [vote, ht, hk, bind, Except.bind] at h
        cases h
      | ok keyword =>
        rw [vote_eq_testVote ht hk] at h
        obtain ⟨n, last, next, hn, hw, hv⟩ := exists_walk_of_testVote h
        exact ⟨keyword, rfl, test, n, last, next, ht, hn, hw, hv⟩
  · rintro ⟨keyword, hk, test, n, last, next, ht, hn, hw, hv⟩
    rw [vote_eq_testVote ht hk]
    exact hw.testVote_eq hn hv

theorem TestsForever.vote_eq (h : f.TestsForever p keyword)
    (hk : f.testKeyword ws p = .ok keyword) : f.vote ws p = .ok none := by
  obtain ⟨test, ht, hwalks⟩ := h
  rw [vote_eq_testVote ht hk]
  rcases hwalks with ⟨m, n, id, hw, hc⟩ | ⟨last, hw⟩
  · obtain ⟨last, hw⟩ := hw.exists_of_circle hc maxTestSteps
    exact hw.testVote_eq_none
  · exact hw.testVote_eq_none

end RuleFrame

section
variable {ws : Workspace} {p : Phrase} {below below' between beyond : List Activation}
  {f : RuleFrame} {result : CallResult}

/-- The voter is the first of the rules on top that votes, and all else stays as it is. -/
theorem Voted.exists_split (h : Voted ws p below below') :
    ∃ between f result resume beyond, below = between ++ ⟨.rule f, result⟩ :: beyond ∧
      below' = between ++ ⟨.rule { f with activeChoice := some resume }, result⟩ :: beyond ∧
      f.vote ws p = .ok (some resume) ∧
      ∀ a ∈ between, ∃ g r, a = ⟨.rule g, r⟩ ∧ g.vote ws p = .ok none := by
  induction h with
  | here f result below resume hv =>
    exact ⟨[], f, result, resume, below, rfl, rfl, hv, List.forall_mem_nil _⟩
  | there g r hv h ih =>
    obtain ⟨between, f, result, resume, beyond, rfl, rfl, hvote, hnone⟩ := ih
    refine ⟨⟨.rule g, r⟩ :: between, f, result, resume, beyond, rfl, rfl, hvote, ?_⟩
    exact List.forall_mem_cons.2 ⟨⟨g, r, rfl, hv⟩, hnone⟩

theorem voteAmong_cons_eq_none
    (h : voteAmong ws p (⟨.rule f, result⟩ :: below) = .ok none) :
    f.vote ws p = .ok none ∧ voteAmong ws p below = .ok none := by
  rw [voteAmong] at h
  cases hv : f.vote ws p with
  | error m => rw [hv] at h; cases h
  | ok vote =>
    rw [hv] at h
    cases vote with
    | some resume => cases h
    | none =>
      refine ⟨rfl, ?_⟩
      cases hb : voteAmong ws p below with
      | error m => simp only [hb, bind, Except.bind] at h; cases h
      | ok voted =>
        simp only [hb, bind, Except.bind, pure, Except.pure, Except.ok.injEq,
          Option.map_eq_none_iff] at h
        rw [h]

theorem voteAmong_eq_none (h : voteAmong ws p (between ++ ⟨.rule f, result⟩ :: beyond) = .ok none)
    (hs : ∀ a ∈ between, a.frame.sort = .rule) : f.vote ws p = .ok none := by
  induction between with
  | nil => exact (voteAmong_cons_eq_none h).1
  | cons a between ih =>
    obtain ⟨frame, r⟩ := a
    obtain ⟨hsort, hrest⟩ := List.forall_mem_cons.1 hs
    cases frame with
    | rule g => exact ih (voteAmong_cons_eq_none h).2 hrest
    | _ => cases hsort

end

/-- A rule below a rule that asks, with nothing but rules between them, that votes at a phrase. -/
structure Voter (asking : Activation) (below : List Activation) (p : Phrase) where
  between : List Activation
  frame : RuleFrame
  result : CallResult
  beyond : List Activation
  keyword : Option KeywordId
  /-- The choice at which the rule goes on. -/
  resume : ActionId
  below_eq : below = between ++ ⟨.rule frame, result⟩ :: beyond
  rules : ∀ a ∈ between, a.frame.sort = .rule
  sees : frame.seenKeyword (asking :: between) (⟨.rule frame, result⟩ :: beyond) p = .ok keyword
  votes : frame.VotesFor p keyword resume

def Voter.voted {asking : Activation} {below : List Activation} {p : Phrase}
    (v : Voter asking below p) : List Activation :=
  v.between ++ ⟨.rule { v.frame with activeChoice := some v.resume }, v.result⟩ :: v.beyond

namespace Interpreter

section
variable {t : Interpreter} {top : RuleFrame} {r : CallResult} {below below' : List Activation}
  {p : Phrase}

/-- A rule that asks goes on at its other branch if it is told of a vote, and at its normal branch
if not. -/
theorem Recalls.step_asking {normal recovery : ActionId} (h : t.Recalls)
    (hstack : t.stack = ⟨.rule top, r⟩ :: below) (ho : t.workspace.queue.hasOutput = false)
    (ha : top.grammar.action top.current = .ok (.recoveryChoice normal recovery))
    (hc : top.activeChoice ≠ some top.current) (hr : t.workspace.recovering = false)
    (p : Phrase) :
    let asking := top.entering t.workspace
    (∃ below', enclosingVote asking.2 p below = .ok (some below') ∧
        t.step (some p) = (.ok none, { t with
          workspace := { asking.2 with recovering := true }
          stack := ⟨.rule (asking.1.goto recovery), .none⟩ :: below' }, some p)) ∨
      (enclosingVote asking.2 p below = .ok none ∧
        t.step (some p) = (.ok none, { t with
          workspace := asking.2
          stack := ⟨.rule (asking.1.goto normal), .none⟩ :: below }, some p)) := by
  intro asking
  obtain ⟨turn, hturn⟩ := h.sound.exists_turn hstack (some p)
  have hstep : t.step (some p) =
      (.ok (stackAfter turn.move turn.below).1, t.after turn, turn.input) := by
    rw [Interpreter.step, ho, hstack]
    simp only [Bool.false_eq_true, if_false, hturn]
    rfl
  rw [hstep]
  clear hstep
  have hc' : asking.1.activeChoice ≠ some asking.1.current := by
    rwa [top.activeChoice_entering, top.current_entering]
  have hr' : asking.2.recovering = false := (top.recovering_entering t.workspace).trans hr
  cases stepFrame_turns hturn with
  | rule f a haction hacts =>
    rw [top.grammar_entering, top.current_entering] at haction
    obtain rfl := Except.ok.inj (haction.symm.trans ha)
    cases hacts with
    | resume input normal recovery hf => exact absurd hf hc'
    | unwind input normal recovery hf hw =>
      rw [hr'] at hw
      cases hw
    | recover p normal recovery below' hf hw hv => exact .inl ⟨below', hv, rfl⟩
    | normal p normal recovery hf hw hv => exact .inr ⟨hv, rfl⟩

theorem Recalls.vote_voter (h : t.Recalls) (hstack : t.stack = ⟨.rule top, r⟩ :: below)
    (v : Voter ⟨.rule (top.entering t.workspace).1, r⟩ below p) :
    v.frame.vote (top.entering t.workspace).2 p = .ok (some v.resume) := by
  rw [v.below_eq] at hstack
  apply RuleFrame.vote_eq_some_iff.2
  exact ⟨v.keyword, (h.testKeyword_eq hstack p).trans v.sees, v.votes⟩

/-- Who has voted is a voter, and no voter is nearer. -/
theorem Recalls.exists_nearest (h : t.Recalls) (hstack : t.stack = ⟨.rule top, r⟩ :: below)
    (hv : Voted (top.entering t.workspace).2 p below below') :
    ∃ v : Voter ⟨.rule (top.entering t.workspace).1, r⟩ below p,
      (∀ w : Voter ⟨.rule (top.entering t.workspace).1, r⟩ below p,
        v.between.length ≤ w.between.length) ∧ below' = v.voted := by
  obtain ⟨between, f, result, resume, beyond, hbelow, rfl, hvote, hnone⟩ := hv.exists_split
  obtain ⟨keyword, hk, hfor⟩ := RuleFrame.vote_eq_some_iff.1 hvote
  have hrules : ∀ a ∈ between, a.frame.sort = .rule := by
    intro a ha
    obtain ⟨g, r, rfl, -⟩ := hnone a ha
    rfl
  have hsees := (h.testKeyword_eq (hbelow ▸ hstack) p).symm.trans hk
  refine ⟨⟨between, f, result, beyond, keyword, resume, hbelow, hrules, hsees, hfor⟩, ?_, rfl⟩
  intro w
  apply Nat.le_of_not_lt
  intro hlt
  -- A nearer voter would be one of the rules between that have been asked in vain.
  have hget : between[w.between.length]? = some ⟨.rule w.frame, w.result⟩ := by
    have hw := congrArg (fun stack => stack[w.between.length]?) (hbelow.symm.trans w.below_eq)
    rwa [List.getElem?_append_left hlt, List.getElem?_append_right (Nat.le_refl _),
      Nat.sub_self] at hw
  obtain ⟨g, r', heq, hg⟩ := hnone _ (List.mem_of_getElem? hget)
  cases heq
  rw [h.vote_voter hstack w] at hg
  cases hg

end

namespace Session

/-- Whenever a rule asks for recovery at a phrase, its step goes on and keeps the phrase. The rule
recovers if and only if the input has not ended and a rule below, with only rules between, has a
test that walks to a vote in time. Then the choice of the nearest such rule is set, and no other
frame below changes. If nobody votes, no frame below changes. A test that runs in circles or for too
long does not vote. -/
theorem nearest_voter_resumes (calls : List Call) (hb : ∀ call ∈ calls, call.Builds)
    {t : Interpreter} (ht : t ∈ new.visited calls) {top : RuleFrame} {r : CallResult}
    {below : List Activation} {normal recovery : ActionId}
    (hstack : t.stack = ⟨.rule top, r⟩ :: below) (ho : t.workspace.queue.hasOutput = false)
    (ha : top.grammar.action top.current = .ok (.recoveryChoice normal recovery))
    (hc : top.activeChoice ≠ some top.current) (hr : t.workspace.recovering = false)
    (p : Phrase) :
    let asking := top.entering t.workspace
    ∃ t', t.step (some p) = (.ok none, t', some p) ∧
      (t'.workspace.recovering = true ↔
        p.kind ≠ .eof ∧ Nonempty (Voter ⟨.rule asking.1, r⟩ below p)) ∧
      (t'.workspace.recovering = true →
        ∃ v : Voter ⟨.rule asking.1, r⟩ below p,
          (∀ w : Voter ⟨.rule asking.1, r⟩ below p, v.between.length ≤ w.between.length) ∧
          t' = { t with
            workspace := { asking.2 with recovering := true }
            stack := ⟨.rule (asking.1.goto recovery), .none⟩ :: v.voted }) ∧
      (t'.workspace.recovering = false →
        t' = { t with
          workspace := asking.2
          stack := ⟨.rule (asking.1.goto normal), .none⟩ :: below }) ∧
      ∀ between f result beyond keyword, below = between ++ ⟨.rule f, result⟩ :: beyond →
        f.seenKeyword (⟨.rule asking.1, r⟩ :: between) (⟨.rule f, result⟩ :: beyond) p =
          .ok keyword →
        f.TestsForever p keyword → f.vote asking.2 p = .ok none := by
  intro asking
  have hrec : t.Recalls := recalls_visited new_sound trivial hb t ht
  have hforever : ∀ between f result beyond keyword,
      below = between ++ ⟨.rule f, result⟩ :: beyond →
        f.seenKeyword (⟨.rule asking.1, r⟩ :: between) (⟨.rule f, result⟩ :: beyond) p =
          .ok keyword →
        f.TestsForever p keyword → f.vote asking.2 p = .ok none := by
    rintro between f result beyond keyword rfl hsees hf
    exact hf.vote_eq ((hrec.testKeyword_eq hstack p).trans hsees)
  rcases hrec.step_asking hstack ho ha hc hr p with ⟨below', hv, hstep⟩ | ⟨hv, hstep⟩
  · obtain ⟨hp, hvoted⟩ := enclosingVote_voted hv
    obtain ⟨v, hnearest, rfl⟩ := hrec.exists_nearest hstack hvoted
    refine ⟨_, hstep, ⟨fun _ => ⟨hp, ⟨v⟩⟩, fun _ => rfl⟩, fun _ => ⟨v, hnearest, rfl⟩, ?_, hforever⟩
    exact nofun
  · have hflag : asking.2.recovering = false := (top.recovering_entering t.workspace).trans hr
    have hnone : ¬ (p.kind ≠ .eof ∧ Nonempty (Voter ⟨.rule asking.1, r⟩ below p)) := by
      rintro ⟨hp, ⟨v⟩⟩
      rw [enclosingVote, if_neg hp, v.below_eq] at hv
      have hvote := hrec.vote_voter hstack v
      rw [voteAmong_eq_none hv v.rules] at hvote
      cases hvote
    refine ⟨_, hstep, ⟨fun hrecovers => ?_, fun hv => absurd hv hnone⟩, fun hrecovers => ?_,
      fun _ => rfl, hforever⟩
    · cases hflag.symm.trans hrecovers
    · cases hflag.symm.trans hrecovers

def askingCalls : List Call := unwindingCalls.dropLast ++ [.parse 2]

/-- The rule that has called the inner one votes at a brace, and that makes the inner one recover.
-/
theorem nearest_voter_resumes_brace :
    let t := (new.performAll askingCalls).interpreter
    let p : Phrase := .ofToken .startBlock ⟨.simple .leftCurly, "\x7b", .start, ⟨1, 2, 1⟩, .nil⟩
    (∀ call ∈ askingCalls, call.Builds) ∧ t ∈ new.visited askingCalls ∧
      ∃ top r below t', t.stack = ⟨.rule top, r⟩ :: below ∧
        t.step (some p) = (.ok none, t', some p) ∧ t'.workspace.recovering = true ∧
        Nonempty (Voter ⟨.rule (top.entering t.workspace).1, r⟩ below p) := by
  intro t p
  have hb : ∀ call ∈ askingCalls, call.Builds := by
    simp [askingCalls, unwindingCalls, Call.Builds, nestingGrammar_built]
  have ht : t ∈ new.visited askingCalls := new.last_mem_visited _
  obtain ⟨top, r, below, hstack, ha, hc⟩ : ∃ top r below, t.stack = ⟨.rule top, r⟩ :: below ∧
      top.grammar.action top.current = .ok (.recoveryChoice 3 7) ∧
      top.activeChoice ≠ some top.current := ⟨_, _, _, rfl, rfl, by decide⟩
  have ho : t.workspace.queue.hasOutput = false := by decide +kernel
  have hr : t.workspace.recovering = false := by decide +kernel
  obtain ⟨t', hstep, hiff, -⟩ :=
    nearest_voter_resumes askingCalls hb ht hstack ho ha hc hr p
  have hrecovers : t'.workspace.recovering = true := by
    have hrun : (t.step (some p)).2.1.workspace.recovering = true := by decide +kernel
    rwa [hstep] at hrun
  exact ⟨hb, ht, top, r, below, t', hstack, hstep, hrecovers, (hiff.1 hrecovers).2⟩

/-- A vote that is due to a keyword of the rule that asks: the only rule below has given up its
keywords, and by the keyword that a choice of it would see, its test comes to no vote. -/
theorem vote_by_inner_keyword :
    let t := (new.performAll (poppingCalls true)).interpreter
    (∀ call ∈ poppingCalls true, call.Builds) ∧ t ∈ new.visited (poppingCalls true) ∧
      t.workspace.recovering = false ∧ ∃ top r f result s result' beyond,
        t.stack = ⟨.rule top, r⟩ :: ⟨.rule f, result⟩ :: ⟨.statement s, result'⟩ :: beyond ∧
        top.grammar.action top.current = .ok (.recoveryChoice 8 9) ∧
        f.choiceKeyword (⟨.rule f, result⟩ :: ⟨.statement s, result'⟩ :: beyond) endPhrase =
          .ok none ∧
        (∀ resume, ¬ f.VotesFor endPhrase none resume) ∧
        (t.step (some endPhrase)).2.1.workspace.recovering = true := by
  intro t
  have hb : ∀ call ∈ poppingCalls true, call.Builds := by
    simp [poppingCalls, Call.Builds, Grammar.built_of_dangling? (g := poppingGrammar true) rfl]
  have ht : t ∈ new.visited (poppingCalls true) := new.last_mem_visited _
  have hrecovers : (t.step (some endPhrase)).2.1.workspace.recovering = true := by decide +kernel
  refine ⟨hb, ht, by decide +kernel, _, _, _, _, _, _, _, rfl, rfl, rfl, fun resume hvotes => ?_,
    hrecovers⟩
  obtain ⟨test, n, last, next, htest, hn, hw, hv⟩ := hvotes
  have hvote := hw.testVote_eq hn hv
  cases htest
  cases hvote

end Session

end Interpreter

end TermStream
