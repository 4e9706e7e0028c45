import TermStream.Proofs.Queue.Contents

namespace TermStream

inductive QueueOperation (α : Type) where
  | append (value : α)
  | pushMark
  | popMark
  | commitMark
  | insertAtMark (value : α)
  | insertBeforeMark (value : α)
  | peekAtMark
  | get

inductive QueueAnswer (α : Type) where
  | done
  | value (value : Option α)
  | refused (misuse : Misuse)
deriving DecidableEq

namespace MarkedQueue

variable {α : Type}

def settle (q : MarkedQueue α) : Except Misuse (MarkedQueue α) → QueueAnswer α × MarkedQueue α
  | .ok q' => (.done, q')
  | .error e => (.refused e, q)

def perform (q : MarkedQueue α) : QueueOperation α → QueueAnswer α × MarkedQueue α
  | .append v => (.done, q.append v)
  | .pushMark => (.done, q.pushMark)
  | .popMark => q.settle q.popMark
  | .commitMark => q.settle q.commitMark
  | .insertAtMark v => q.settle (q.insertAtMark v)
  | .insertBeforeMark v => q.settle (q.insertBeforeMark v)
  | .peekAtMark => (.value q.peekAtMark?, q)
  | .get =>
    match q.get with
    | .ok (v, q') => (.value v, q')
    | .error e => (.refused e, q)

def performAll (q : MarkedQueue α) : List (QueueOperation α) → List (QueueAnswer α) × MarkedQueue α
  | [] => ([], q)
  | op :: ops =>
    let (answer, q) := q.perform op
    let (answers, q) := q.performAll ops
    (answer :: answers, q)

end MarkedQueue

structure PlainQueue (α : Type) where
  /-- Every value has an identity that no other value has ever had. -/
  values : List (Nat × α)
  /-- The identity of the value behind which a mark stands, and whether the mark is committed; the
  innermost mark first. -/
  marks : List (Option Nat × Bool)
  /-- How many identities have been given. -/
  given : Nat

namespace PlainQueue

variable {α : Type}

def empty : PlainQueue α := ⟨[], [], 0⟩

def place (p : PlainQueue α) : Option Nat → Nat
  | none => 0
  | some i => (p.values.map Prod.fst).idxOf i + 1

def insertAt (p : PlainQueue α) (n : Nat) (value : α) : PlainQueue α :=
  { p with values := p.values.take n ++ (p.given, value) :: p.values.drop n, given := p.given + 1 }

def activeMark? (p : PlainQueue α) : Option (Option Nat × Bool) := p.marks.find? fun m => !m.2

def perform (p : PlainQueue α) : QueueOperation α → QueueAnswer α × PlainQueue α
  | .append v => (.done, p.insertAt p.values.length v)
  | .pushMark => (.done, { p with marks := (p.values.getLast?.map Prod.fst, false) :: p.marks })
  | .popMark =>
    match p.marks with
    | [] => (.refused .noMark, p)
    | _ :: marks => (.done, { p with marks := marks })
  | .commitMark =>
    match p.marks.findIdx? fun m => !m.2 with
    | none => (.refused .noMark, p)
    | some n => (.done, { p with marks := p.marks.modify n fun m => (m.1, true) })
  | .insertAtMark v =>
    match p.activeMark? with
    | none => (.refused .noMark, p)
    | some m => (.done, p.insertAt (p.place m.1) v)
  | .insertBeforeMark v =>
    if p.marks = [] then (.refused .noMark, p)
    else
      let marks := p.marks.modify (p.marks.length - 1) fun m => (some p.given, m.2)
      (.done, { p.insertAt 0 v with marks := marks })
  | .peekAtMark =>
    match p.activeMark? with
    | none => (.value none, p)
    | some m => (.value (p.values[p.place m.1]?.map Prod.snd), p)
  | .get =>
    if p.marks ≠ [] then (.refused (.marksLive p.marks.length), p)
    else (.value (p.values.head?.map Prod.snd), { p with values := p.values.tail })

def performAll (p : PlainQueue α) : List (QueueOperation α) → List (QueueAnswer α) × PlainQueue α
  | [] => ([], p)
  | op :: ops =>
    let (answer, p) := p.perform op
    let (answers, p) := p.performAll ops
    (answer :: answers, p)

end PlainQueue

structure QueueView (α : Type) where
  values : List α
  length : Nat
  markCount : Nat
  isEmpty : Bool
  hasMark : Bool
  hasActiveMark : Bool
  needsMore : Bool
  hasOutput : Bool

def MarkedQueue.view {α : Type} (q : MarkedQueue α) : QueueView α where
  values := q.toList
  length := q.length
  markCount := q.markCount
  isEmpty := q.isEmpty
  hasMark := q.hasMark
  hasActiveMark := q.hasActiveMark
  needsMore := q.needsMore
  hasOutput := q.hasOutput

def PlainQueue.view {α : Type} (p : PlainQueue α) : QueueView α where
  values := p.values.map Prod.snd
  length := p.values.length
  markCount := p.marks.length
  isEmpty := p.values.isEmpty
  hasMark := !p.marks.isEmpty
  hasActiveMark := p.marks.any fun m => !m.2
  needsMore := !p.marks.isEmpty || p.values.isEmpty
  hasOutput := p.marks.isEmpty && !p.values.isEmpty

/-- A value, the node in which it is, and its identity. -/
structure QueueCell (α : Type) where
  node : Nat
  identity : Nat
  value : α

/-- The cell behind which a mark stands, and whether the mark is committed. -/
abbrev QueueStand (α : Type) := Option (QueueCell α) × Bool

namespace QueueStand

variable {α : Type}

def mark (s : QueueStand α) : Mark := ⟨s.1.map QueueCell.node, s.2⟩

def plainMark (s : QueueStand α) : Option Nat × Bool := (s.1.map QueueCell.identity, s.2)

end QueueStand

namespace MarkedQueue

variable {α : Type} {q q' : MarkedQueue α} {p : PlainQueue α} {cells pre post : List (QueueCell α)}
  {stands : List (QueueStand α)} {v : α}

/-- Both queues have the values of `cells` and the marks of `stands`. -/
structure Agrees (q : MarkedQueue α) (p : PlainQueue α) (cells : List (QueueCell α))
    (stands : List (QueueStand α)) : Prop where
  chain : q.Chain (cells.map QueueCell.node)
  values : ∀ c ∈ cells, q.valueAt? c.node = some c.value
  plain : p.values = cells.map fun c => (c.identity, c.value)
  nodup : (cells.map QueueCell.identity).Nodup
  given : ∀ c ∈ cells, c.identity < p.given
  marks : q.marks = stands.map QueueStand.mark
  plainMarks : p.marks = stands.map QueueStand.plainMark
  stands_mem : ∀ s ∈ stands, ∀ c ∈ s.1, c ∈ cells

theorem empty_agrees : (empty : MarkedQueue α).Agrees .empty [] [] where
  chain := empty_chain
  values := nofun
  plain := rfl
  nodup := .nil
  given := nofun
  marks := rfl
  plainMarks := rfl
  stands_mem := nofun

theorem valuesAt_cells (ho : ∀ c ∈ cells, (q.valueAt? c.node).isSome) :
    q.valuesAt (cells.map QueueCell.node) = cells.map QueueCell.value ↔
      ∀ c ∈ cells, q.valueAt? c.node = some c.value := by
  induction cells with
  | nil => simp [valuesAt]
  | cons c cells ih =>
    have ih := ih fun c' hc => ho c' (List.mem_cons_of_mem _ hc)
    obtain ⟨v, hv⟩ := Option.isSome_iff_exists.1 (ho c List.mem_cons_self)
    have hcons : q.valuesAt ((c :: cells).map QueueCell.node) =
        v :: q.valuesAt (cells.map QueueCell.node) := List.filterMap_cons_some hv
    rw [hcons, List.map_cons, List.cons.injEq, ih, List.forall_mem_cons, hv, Option.some.injEq]

theorem idxOf_cell {f : QueueCell α → Nat} {c : QueueCell α}
    (hn : ((pre ++ c :: post).map f).Nodup) :
    ((pre ++ c :: post).map f).idxOf (f c) = pre.length := by
  rw [List.map_append, List.map_cons] at hn ⊢
  have hc : f c ∉ pre.map f := fun hc => (List.nodup_append.1 hn).2.2 _ hc _ List.mem_cons_self rfl
  rw [List.idxOf_append, if_neg hc, List.idxOf_cons_self, List.length_map, Nat.zero_add]

def Answers (q : MarkedQueue α) (p : PlainQueue α) (op : QueueOperation α) : Prop :=
  (q.perform op).1 = (p.perform op).1 ∧
    ∃ cells stands, (q.perform op).2.Agrees (p.perform op).2 cells stands

theorem Agrees.answers {op : QueueOperation α} {a : QueueAnswer α} {q' : MarkedQueue α}
    {p' : PlainQueue α} (h : q'.Agrees p' cells stands) (hq : q.perform op = (a, q'))
    (hp : p.perform op = (a, p')) : Answers q p op := by
  rw [Answers, hq, hp]
  exact ⟨rfl, cells, stands, h⟩

theorem commitFirst_marks (stands : List (QueueStand α)) :
    commitFirst (stands.map QueueStand.mark) =
      (stands.findIdx? fun s => !s.2).map fun n =>
        (stands.modify n fun s => (s.1, true)).map QueueStand.mark := by
  induction stands with
  | nil => rfl
  | cons s stands ih =>
    obtain ⟨c, _ | _⟩ := s
    · rfl
    · simp only [List.map_cons, commitFirst, ih, List.findIdx?_cons]
      cases stands.findIdx? fun s => !s.2 <;> rfl

theorem moveOutermost_marks (c : QueueCell α) (stands : List (QueueStand α)) :
    moveOutermost c.node (stands.map QueueStand.mark) =
      (stands.modify (stands.length - 1) fun s => (some c, s.2)).map QueueStand.mark := by
  induction stands with
  | nil => rfl
  | cons s stands ih =>
    cases stands with
    | nil => rfl
    | cons s' stands => exact congrArg (s.mark :: ·) ih

theorem modify_plainMarks {g : Option Nat × Bool → Option Nat × Bool} (n : Nat)
    (f : QueueStand α → QueueStand α) (hfg : ∀ s, g s.plainMark = (f s).plainMark) :
    (stands.map QueueStand.plainMark).modify n g =
      (stands.modify n f).map QueueStand.plainMark := by
  induction stands generalizing n with
  | nil => cases n <;> rfl
  | cons s stands ih =>
    cases n with
    | zero => exact congrArg (· :: stands.map QueueStand.plainMark) (hfg s)
    | succ n => exact congrArg (s.plainMark :: ·) (ih n)

theorem mem_modify {f : QueueStand α → QueueStand α} {s : QueueStand α} {n : Nat}
    (h : s ∈ stands.modify n f) : s ∈ stands ∨ ∃ s' ∈ stands, s = f s' := by
  obtain ⟨k, hk⟩ := List.mem_iff_getElem?.1 h
  rw [List.getElem?_modify] at hk
  split at hk
  · obtain ⟨s', hs', rfl⟩ := Option.map_eq_some_iff.1 hk
    exact .inr ⟨s', List.mem_of_getElem? hs', rfl⟩
  · rw [id_map'] at hk
    exact .inl (List.mem_of_getElem? hk)

namespace Agrees

theorem occupied (h : q.Agrees p cells stands) : ∀ c ∈ cells, (q.valueAt? c.node).isSome :=
  fun _ hc => h.chain.occupied _ (List.mem_map_of_mem hc)

theorem toList_eq (h : q.Agrees p cells stands) : q.toList = cells.map QueueCell.value :=
  h.chain.toList_eq.trans ((valuesAt_cells h.occupied).2 h.values)

theorem identities_eq (h : q.Agrees p cells stands) :
    p.values.map Prod.fst = cells.map QueueCell.identity := by
  rw [h.plain, List.map_map]
  rfl

theorem activeMark?_eq (h : q.Agrees p cells stands) :
    q.activeMark? = (stands.find? fun s => !s.2).map QueueStand.mark := by
  rw [activeMark?, h.marks, List.find?_map]
  rfl

theorem plain_activeMark?_eq (h : q.Agrees p cells stands) :
    p.activeMark? = (stands.find? fun s => !s.2).map QueueStand.plainMark := by
  rw [PlainQueue.activeMark?, h.plainMarks, List.find?_map]
  rfl

theorem view_eq (h : q.Agrees p cells stands) : q.view = p.view := by
  have hl : q.length = p.values.length := by
    rw [h.chain.length, h.plain, List.length_map, List.length_map]
  have hv : q.toList = p.values.map Prod.snd := by
    rw [h.toList_eq, h.plain, List.map_map]
    rfl
  have he : q.isEmpty = p.values.isEmpty := by
    rw [isEmpty, hl]
    cases p.values <;> rfl
  have hm : q.marks.length = p.marks.length := by
    rw [h.marks, h.plainMarks, List.length_map, List.length_map]
  have hb : q.hasMark = !p.marks.isEmpty := by
    rw [hasMark, h.marks, h.plainMarks, List.isEmpty_map, List.isEmpty_map]
  have ha : q.hasActiveMark = p.marks.any fun m => !m.2 := by
    rw [hasActiveMark, h.activeMark?_eq, h.plainMarks, List.any_map, Option.isSome_map,
      List.isSome_find?]
    rfl
  simp [view, PlainQueue.view, needsMore, hasOutput, markCount, hv, hl, hm, he, hb, ha]

theorem split_at (h : q.Agrees p cells stands) {s : QueueStand α} (hs : s ∈ stands) :
    ∃ pre post, cells = pre ++ post ∧ s.mark.after = (pre.map QueueCell.node).getLast? ∧
      p.place s.plainMark.1 = pre.length := by
  obtain ⟨_ | c, committed⟩ := s
  · exact ⟨[], cells, rfl, rfl, rfl⟩
  · obtain ⟨pre, post, rfl⟩ := List.append_of_mem (h.stands_mem _ hs c rfl)
    refine ⟨pre ++ [c], post, by simp, by simp [QueueStand.mark], ?_⟩
    have hp : p.place (some c.identity) =
        ((pre ++ c :: post).map QueueCell.identity).idxOf c.identity + 1 := by
      rw [PlainQueue.place, h.identities_eq]
    rw [List.length_append, List.length_singleton, ← idxOf_cell h.nodup]
    exact hp

theorem insertAfter (pre post : List (QueueCell α)) (h : q.Agrees p (pre ++ post) stands) (v : α) :
    (q.insertAfter (pre.map QueueCell.node).getLast? v).2.Agrees (p.insertAt pre.length v)
      (pre ++ ⟨(q.insertAfter (pre.map QueueCell.node).getLast? v).1, p.given, v⟩ :: post)
      stands := by
  have hi := Chain.insertAfter (pre.map QueueCell.node) (post.map QueueCell.node)
    (List.map_append ▸ h.chain) v
  generalize q.insertAfter (pre.map QueueCell.node).getLast? v = r at hi ⊢
  obtain ⟨i, q'⟩ := r
  have hmem : ∀ c, c ∈ pre ++ ⟨i, p.given, v⟩ :: post ↔ c = ⟨i, p.given, v⟩ ∨ c ∈ pre ++ post := by
    intro c
    rw [List.mem_append, List.mem_cons, List.mem_append, or_left_comm]
  refine
    { chain := ?_, values := ?_, plain := ?_, nodup := ?_, given := ?_, marks := ?_,
      plainMarks := h.plainMarks, stands_mem := ?_ }
  · rw [List.map_append, List.map_cons]
    exact hi.chain
  · intro c hc
    rcases (hmem c).1 hc with rfl | hc
    · exact hi.value
    · have hne : c.node ≠ i := fun hci =>
        hi.notMem (List.map_append ▸ hci ▸ List.mem_map_of_mem hc)
      rw [hi.others _ hne]
      exact h.values c hc
  · simp [PlainQueue.insertAt, h.plain]
  · rw [List.map_append, List.map_cons, List.perm_middle.nodup_iff, List.nodup_cons,
      ← List.map_append]
    refine ⟨fun hg => ?_, h.nodup⟩
    obtain ⟨c, hc, he⟩ := List.mem_map.1 hg
    exact absurd he (Nat.ne_of_lt (h.given c hc))
  · intro c hc
    rcases (hmem c).1 hc with rfl | hc
    · exact Nat.lt_succ_self _
    · exact Nat.lt_succ_of_lt (h.given c hc)
  · exact hi.marks.trans h.marks
  · exact fun s hs c hc => (hmem c).2 (.inr (h.stands_mem s hs c hc))

theorem withMarks {q' : MarkedQueue α} {p' : PlainQueue α} {stands' : List (QueueStand α)}
    (h : q.Agrees p cells stands) (hs : ∀ s ∈ stands', ∀ c ∈ s.1, c ∈ cells)
    (hq : q' = { q with marks := stands'.map QueueStand.mark })
    (hp : p' = { p with marks := stands'.map QueueStand.plainMark }) :
    q'.Agrees p' cells stands' := by
  subst hq hp
  exact
    { chain := h.chain.withMarks <| by
        intro m hm i hi
        obtain ⟨s, hsm, rfl⟩ := List.mem_map.1 hm
        obtain ⟨c, hc, rfl⟩ := Option.map_eq_some_iff.1 hi
        exact List.mem_map_of_mem (hs s hsm c hc)
      values := h.values, plain := h.plain, nodup := h.nodup, given := h.given, marks := rfl,
      plainMarks := rfl, stands_mem := hs }

theorem append (h : q.Agrees p cells stands) (v : α) : Answers q p (.append v) := by
  have hi := insertAfter cells [] ((List.append_nil cells).symm ▸ h) v
  have hl : p.values.length = cells.length := by rw [h.plain, List.length_map]
  rw [← h.chain.tail, ← hl] at hi
  exact ⟨rfl, _, _, hi⟩

theorem pushMark (h : q.Agrees p cells stands) : Answers q p .pushMark := by
  refine ⟨rfl, cells, (cells.getLast?, false) :: stands, h.withMarks ?_ ?_ ?_⟩
  · intro s hs c hc
    rcases List.mem_cons.1 hs with rfl | hs
    · exact List.mem_of_getLast? hc
    · exact h.stands_mem s hs c hc
  · simp [perform, MarkedQueue.pushMark, h.marks, h.chain.tail, QueueStand.mark]
  · simp [PlainQueue.perform, h.plainMarks, h.plain, QueueStand.plainMark, Function.comp_def]

theorem popMark (h : q.Agrees p cells stands) : Answers q p .popMark := by
  have hm := h.marks
  have hp := h.plainMarks
  cases stands with
  | nil =>
    have hq : q.perform .popMark = (.refused .noMark, q) := by
      simp [perform, settle, MarkedQueue.popMark, hm]
    have hp : p.perform .popMark = (.refused .noMark, p) := by simp [PlainQueue.perform, hp]
    exact h.answers hq hp
  | cons s stands =>
    have hq : q.perform .popMark = (.done, { q with marks := stands.map QueueStand.mark }) := by
      simp [perform, settle, MarkedQueue.popMark, hm]
    have hp : p.perform .popMark =
        (.done, { p with marks := stands.map QueueStand.plainMark }) := by
      simp [PlainQueue.perform, hp]
    have hs : ∀ s' ∈ stands, ∀ c ∈ s'.1, c ∈ cells := fun s' hs' =>
      h.stands_mem s' (List.mem_cons_of_mem _ hs')
    exact (h.withMarks hs rfl rfl).answers hq hp

theorem commitMark (h : q.Agrees p cells stands) : Answers q p .commitMark := by
  have hm := commitFirst_marks stands
  have hp : (p.marks.findIdx? fun m => !m.2) = stands.findIdx? fun s => !s.2 := by
    rw [h.plainMarks, List.findIdx?_map]
    rfl
  cases hn : stands.findIdx? fun s => !s.2 with
  | none =>
    have hq : q.perform .commitMark = (.refused .noMark, q) := by
      simp [perform, settle, MarkedQueue.commitMark, h.marks, hm, hn]
    have hp : p.perform .commitMark = (.refused .noMark, p) := by simp [PlainQueue.perform, hp, hn]
    exact h.answers hq hp
  | some n =>
    let stands' := stands.modify n fun s => (s.1, true)
    have hq : q.perform .commitMark = (.done, { q with marks := stands'.map QueueStand.mark }) := by
      simp [perform, settle, MarkedQueue.commitMark, h.marks, hm, hn, stands']
    have hp : p.perform .commitMark =
        (.done, { p with marks := stands'.map QueueStand.plainMark }) := by
      simp only [PlainQueue.perform, hp, hn]
      rw [h.plainMarks, modify_plainMarks _ fun s : QueueStand α => (s.1, true)]
      exact fun s => rfl
    refine (h.withMarks ?_ rfl rfl).answers hq hp
    intro s hs c hc
    rcases mem_modify hs with hs | ⟨s', hs', rfl⟩
    · exact h.stands_mem s hs c hc
    · exact h.stands_mem s' hs' c hc

theorem insertAtMark (h : q.Agrees p cells stands) (v : α) : Answers q p (.insertAtMark v) := by
  have hm := h.activeMark?_eq
  have hp := h.plain_activeMark?_eq
  cases hs : stands.find? fun s => !s.2 with
  | none =>
    have hq : q.perform (.insertAtMark v) = (.refused .noMark, q) := by
      simp [perform, settle, MarkedQueue.insertAtMark, hm, hs]
    have hp : p.perform (.insertAtMark v) = (.refused .noMark, p) := by
      simp [PlainQueue.perform, hp, hs]
    exact h.answers hq hp
  | some s =>
    obtain ⟨pre, post, rfl, ha, hn⟩ := h.split_at (List.mem_of_find?_eq_some hs)
    have hq : q.perform (.insertAtMark v) =
        (.done, (q.insertAfter (pre.map QueueCell.node).getLast? v).2) := by
      simp [perform, settle, MarkedQueue.insertAtMark, hm, hs, ha]
    have hp : p.perform (.insertAtMark v) = (.done, p.insertAt pre.length v) := by
      simp [PlainQueue.perform, hp, hs, hn]
    exact (h.insertAfter pre post v).answers hq hp

theorem insertBeforeMark (h : q.Agrees p cells stands) (v : α) :
    Answers q p (.insertBeforeMark v) := by
  by_cases hs : stands = []
  · have hq : q.perform (.insertBeforeMark v) = (.refused .noMark, q) := by
      simp [perform, settle, MarkedQueue.insertBeforeMark, h.marks, hs]
    have hp : p.perform (.insertBeforeMark v) = (.refused .noMark, p) := by
      simp [PlainQueue.perform, h.plainMarks, hs]
    exact h.answers hq hp
  · have hi := insertAfter [] cells h v
    let c : QueueCell α := ⟨(q.insertAfter none v).1, p.given, v⟩
    let stands' := stands.modify (stands.length - 1) fun s => (some c, s.2)
    have hq : q.perform (.insertBeforeMark v) =
        (.done, { (q.insertAfter none v).2 with marks := stands'.map QueueStand.mark }) := by
      simp [perform, settle, MarkedQueue.insertBeforeMark, h.marks, hs, stands',
        ← moveOutermost_marks, c]
    have hp : p.perform (.insertBeforeMark v) =
        (.done, { p.insertAt 0 v with marks := stands'.map QueueStand.plainMark }) := by
      simp only [PlainQueue.perform]
      rw [h.plainMarks, modify_plainMarks _ fun s : QueueStand α => (some c, s.2)]
      · simp [hs, stands']
      · exact fun s => rfl
    refine (hi.withMarks ?_ rfl rfl).answers hq hp
    intro s hs c' hc
    rcases mem_modify hs with hs | ⟨s', -, rfl⟩
    · exact List.mem_cons_of_mem _ (h.stands_mem s hs c' hc)
    · cases hc
      exact List.mem_cons_self

theorem peekAtMark (h : q.Agrees p cells stands) : Answers q p .peekAtMark := by
  have hm := h.activeMark?_eq
  have hp := h.plain_activeMark?_eq
  cases hs : stands.find? fun s => !s.2 with
  | none =>
    have hq : q.perform .peekAtMark = (.value none, q) := by simp [perform, peekAtMark?, hm, hs]
    have hp : p.perform .peekAtMark = (.value none, p) := by simp [PlainQueue.perform, hp, hs]
    exact h.answers hq hp
  | some s =>
    obtain ⟨pre, post, rfl, ha, hn⟩ := h.split_at (List.mem_of_find?_eq_some hs)
    have hnext : q.following s.mark.after = (post.map QueueCell.node).head? :=
      ha ▸ h.chain.links _ _ List.map_append
    have hpeek : q.peekAtMark? = post.head?.map QueueCell.value := by
      simp only [peekAtMark?, hm, hs, Option.map_some, hnext]
      cases post with
      | nil => rfl
      | cons c post => exact h.values c (by simp)
    have hq : q.perform .peekAtMark = (.value (post.head?.map QueueCell.value), q) := by
      simp [perform, hpeek]
    have hp : p.perform .peekAtMark = (.value (post.head?.map QueueCell.value), p) := by
      cases post <;> simp [PlainQueue.perform, hp, hs, hn, h.plain]
    exact h.answers hq hp

theorem get (h : q.Agrees p cells stands) : Answers q p .get := by
  by_cases hs : stands = []
  · subst hs
    have hpm : p.marks = [] := h.plainMarks
    have hpv := h.plain
    cases cells with
    | nil =>
      have hq : q.perform .get = (.value none, q) := by
        simp [perform, MarkedQueue.get, hasMark, h.marks, h.chain.head]
      have hp : p.perform .get = (.value none, p) := by
        obtain ⟨values, marks, given⟩ := p
        obtain rfl : values = [] := hpv
        obtain rfl : marks = [] := hpm
        rfl
      exact h.answers hq hp
    | cons c cells =>
      obtain ⟨v, q', hg, hc, hm, hl⟩ := h.chain.get h.marks
      rw [h.toList_eq, List.map_cons, List.cons.injEq] at hl
      obtain ⟨rfl, hl⟩ := hl
      have ho : ∀ c' ∈ cells, (q'.valueAt? c'.node).isSome := fun _ hc' =>
        hc.occupied _ (List.mem_map_of_mem hc')
      have hq : q.perform .get = (.value (some c.value), q') := by simp [perform, hg]
      have hp : p.perform .get = (.value (some c.value), { p with values := p.values.tail }) := by
        simp [PlainQueue.perform, hpm, hpv]
      have h' : q'.Agrees { p with values := p.values.tail } cells [] :=
        { chain := hc
          values := (valuesAt_cells ho).1 (hc.toList_eq.symm.trans hl.symm)
          plain := congrArg List.tail hpv
          nodup := (List.nodup_cons.1 h.nodup).2
          given := fun c' hc' => h.given c' (List.mem_cons_of_mem _ hc')
          marks := hm
          plainMarks := hpm
          stands_mem := List.forall_mem_nil _ }
      exact h'.answers hq hp
  · have hq : q.perform .get = (.refused (.marksLive stands.length), q) := by
      simp [perform, MarkedQueue.get, hasMark, markCount, h.marks, hs]
    have hp : p.perform .get = (.refused (.marksLive stands.length), p) := by
      simp [PlainQueue.perform, h.plainMarks, hs]
    exact h.answers hq hp

theorem perform (h : q.Agrees p cells stands) (op : QueueOperation α) : Answers q p op := by
  cases op with
  | append v => exact h.append v
  | pushMark => exact h.pushMark
  | popMark => exact h.popMark
  | commitMark => exact h.commitMark
  | insertAtMark v => exact h.insertAtMark v
  | insertBeforeMark v => exact h.insertBeforeMark v
  | peekAtMark => exact h.peekAtMark
  | get => exact h.get

theorem performAll (h : q.Agrees p cells stands) (ops : List (QueueOperation α)) :
    (q.performAll ops).1 = (p.performAll ops).1 ∧
      ∃ cells stands, (q.performAll ops).2.Agrees (p.performAll ops).2 cells stands := by
  induction ops generalizing q p cells stands with
  | nil => exact ⟨rfl, cells, stands, h⟩
  | cons op ops ih =>
    obtain ⟨ha, cells', stands', h'⟩ := h.perform op
    obtain ⟨has, hagrees⟩ := ih h'
    exact ⟨List.cons_eq_cons.2 ⟨ha, has⟩, hagrees⟩

end Agrees

theorem settle_refused {r : Except Misuse (MarkedQueue α)} {e : Misuse}
    (h : (q.settle r).1 = .refused e) : (q.settle r).2 = q := by
  cases r with
  | ok q' => cases h
  | error e => rfl

theorem perform_refused {op : QueueOperation α} {e : Misuse}
    (h : (q.perform op).1 = .refused e) : (q.perform op).2 = q := by
  cases op with
  | append v => cases h
  | pushMark => cases h
  | peekAtMark => rfl
  | popMark => exact settle_refused h
  | commitMark => exact settle_refused h
  | insertAtMark v => exact settle_refused h
  | insertBeforeMark v => exact settle_refused h
  | get =>
    simp only [MarkedQueue.perform] at h ⊢
    split at h
    · cases h
    · rfl

/-- The marks stand at the same places of both queues. -/
theorem Agrees.places_eq (h : q.Agrees p cells stands) :
    q.marks.map (fun m => (m.after.map (cells.map QueueCell.node).idxOf, m.committed)) =
      p.marks.map (fun m => (m.1.map (p.values.map Prod.fst).idxOf, m.2)) := by
  rw [h.marks, h.plainMarks, h.identities_eq, List.map_map, List.map_map]
  apply List.map_congr_left
  rintro ⟨_ | c, committed⟩ hs
  · rfl
  · obtain ⟨pre, post, rfl⟩ := List.append_of_mem (h.stands_mem _ hs c rfl)
    simp only [Function.comp, QueueStand.mark, QueueStand.plainMark, Option.map_some,
      idxOf_cell h.chain.nodup, idxOf_cell h.nodup]

/-- Whatever is done with a queue, it answers as a plain queue does, and all that can be seen of the
two is the same. The values are in a chain of nodes, with one node for each of them, and the marks
stand in the chain where they stand among the plain values. -/
theorem behaves_as_plain (ops : List (QueueOperation α)) :
    let q := ((empty : MarkedQueue α).performAll ops).2
    let p := ((PlainQueue.empty : PlainQueue α).performAll ops).2
    ((empty : MarkedQueue α).performAll ops).1 = (PlainQueue.empty.performAll ops).1 ∧
      q.view = p.view ∧
      (∀ op e, (q.perform op).1 = .refused e → (q.perform op).2 = q) ∧
      (p.values.map Prod.fst).Nodup ∧
      ∃ is, q.Chain is ∧
        q.marks.map (fun m => (m.after.map is.idxOf, m.committed)) =
          p.marks.map (fun m => (m.1.map (p.values.map Prod.fst).idxOf, m.2)) := by
  obtain ⟨ha, cells, stands, h⟩ := empty_agrees.performAll ops
  exact ⟨ha, h.view_eq, fun _ _ => perform_refused, h.identities_eq ▸ h.nodup,
    cells.map QueueCell.node, h.chain, h.places_eq⟩

-- the node of the first value is used again
example : ((empty : MarkedQueue Nat).performAll
      [.append 1, .get, .pushMark, .append 2, .insertBeforeMark 3, .peekAtMark, .get, .popMark,
        .get]).1 =
    [.done, .value (some 1), .done, .done, .done, .value (some 2), .refused (.marksLive 1), .done,
      .value (some 3)] := by
  decide

end MarkedQueue

end TermStream
