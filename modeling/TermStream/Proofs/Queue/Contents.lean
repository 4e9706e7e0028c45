import TermStream.Proofs.Queue.Chain

namespace TermStream.MarkedQueue

variable {α : Type} {q q' : MarkedQueue α} {is : List Nat} {v : α}

/-- The nodes of the queue are a chain. -/
def Sound (q : MarkedQueue α) : Prop := ∃ is, q.Chain is

theorem empty_sound : (empty : MarkedQueue α).Sound := ⟨[], empty_chain⟩

theorem Chain.withMarks {marks : List Mark} (h : q.Chain is)
    (hm : ∀ m ∈ marks, ∀ i, m.after = some i → i ∈ is) : Chain { q with marks := marks } is :=
  { nodup := h.nodup, occupied := h.occupied, links := h.links, tail := h.tail, length := h.length,
    free_nodup := h.free_nodup, free_lt := h.free_lt, free_notMem := h.free_notMem, size := h.size,
    marks := hm }

theorem valuesFrom_congr (hn : q'.nodes = q.nodes) (fuel : Nat) (place : Option Nat) :
    q'.valuesFrom fuel place = q.valuesFrom fuel place := by
  induction fuel generalizing place with
  | zero => rfl
  | succ fuel ih =>
    cases place with
    | none => rfl
    | some i => simp [valuesFrom, valueAt?, following, hn, ih]

theorem toList_congr (hn : q'.nodes = q.nodes) (hh : q'.head = q.head) : q'.toList = q.toList := by
  unfold toList
  rw [valuesFrom_congr hn, hn, hh]

@[simp] theorem insertAfter_marks (q : MarkedQueue α) (after : Option Nat) (v : α) :
    (q.insertAfter after v).2.marks = q.marks := by
  rw [insertAfter_eq]
  have ha : (q.allocate ⟨some v, q.following after⟩).2.marks = q.marks := by
    unfold allocate
    split <;> rfl
  exact (link_rest _ _ _).2.1.trans ha

theorem Inserted.valuesAt_eq {pre post : List Nat} {i : Nat} (h : q.Inserted pre post v i q')
    {js : List Nat} (hjs : ∀ j ∈ js, j ∈ pre ++ post) : q'.valuesAt js = q.valuesAt js := by
  apply valuesAt_congr
  intro j hj
  apply h.others j
  rintro rfl
  exact h.notMem (hjs j hj)

theorem Inserted.toList_eq {pre post : List Nat} {i : Nat} (h : q.Inserted pre post v i q') :
    q'.toList = q.valuesAt pre ++ v :: q.valuesAt post := by
  have hcons : q'.valuesAt (i :: post) = v :: q'.valuesAt post :=
    List.filterMap_cons_some h.value
  rw [h.chain.toList_eq, valuesAt_append, hcons, h.valuesAt_eq fun _ => List.mem_append_left _,
    h.valuesAt_eq fun _ => List.mem_append_right _]

@[simp] theorem append_marks (q : MarkedQueue α) (v : α) : (q.append v).marks = q.marks :=
  q.insertAfter_marks q.tail v

theorem Chain.append (h : q.Chain is) (v : α) :
    ∃ i, q.Inserted is [] v i (q.append v) := by
  have hi := Chain.insertAfter is [] (by rwa [List.append_nil]) v
  rw [← h.tail] at hi
  exact ⟨_, hi⟩

theorem Sound.append (h : q.Sound) (v : α) : (q.append v).Sound := by
  obtain ⟨is, hc⟩ := h
  obtain ⟨i, hi⟩ := hc.append v
  exact ⟨_, hi.chain⟩

theorem Sound.toList_append (h : q.Sound) (v : α) : (q.append v).toList = q.toList ++ [v] := by
  obtain ⟨is, hc⟩ := h
  obtain ⟨i, hi⟩ := hc.append v
  rw [hi.toList_eq, hc.toList_eq]
  rfl

/-- A mark stands behind the first nodes of a chain. -/
theorem Chain.split_at_mark (h : q.Chain is) {m : Mark} (hm : m ∈ q.marks) :
    ∃ pre post, is = pre ++ post ∧ m.after = pre.getLast? := by
  cases ha : m.after with
  | none => exact ⟨[], is, rfl, rfl⟩
  | some i =>
    obtain ⟨pre, post, rfl⟩ := List.append_of_mem (h.marks m hm i ha)
    exact ⟨pre ++ [i], post, by simp, by simp⟩

theorem insertAtMark_marks (h : q.insertAtMark v = .ok q') : q'.marks = q.marks := by
  unfold insertAtMark at h
  split at h
  · cases h
  · cases h
    exact q.insertAfter_marks _ v

/-- A value put at a mark comes between the values in front of the mark and those behind it. -/
theorem Sound.insertAtMark (h : q.Sound) (hi : q.insertAtMark v = .ok q') :
    q'.Sound ∧ ∃ front back, q.toList = front ++ back ∧ q'.toList = front ++ v :: back := by
  obtain ⟨is, hc⟩ := h
  unfold MarkedQueue.insertAtMark at hi
  split at hi
  · cases hi
  · next m hm =>
    cases hi
    obtain ⟨pre, post, rfl, ha⟩ := hc.split_at_mark (List.mem_of_find?_eq_some hm)
    have hins := hc.insertAfter _ _ v
    rw [← ha] at hins
    exact ⟨⟨_, hins.chain⟩, _, _, hc.toList_eq.trans (valuesAt_append _ _ _), hins.toList_eq⟩

theorem moveOutermost_length (i : Nat) (marks : List Mark) :
    (moveOutermost i marks).length = marks.length := by
  induction marks with
  | nil => rfl
  | cons m marks ih =>
    cases marks with
    | nil => rfl
    | cons m' marks => simpa [moveOutermost] using ih

theorem moveOutermost_mem {i : Nat} {marks : List Mark} {m : Mark}
    (h : m ∈ moveOutermost i marks) :
    m ∈ marks ∨ ∃ m' ∈ marks, m = { m' with after := some i } := by
  induction marks with
  | nil => cases h
  | cons m₁ marks ih =>
    cases marks with
    | nil =>
      obtain rfl := List.mem_singleton.1 h
      exact .inr ⟨m₁, List.mem_cons_self, rfl⟩
    | cons m₂ marks =>
      rcases List.mem_cons.1 h with rfl | h
      · exact .inl List.mem_cons_self
      · rcases ih h with hm | ⟨m', hm, rfl⟩
        · exact .inl (List.mem_cons_of_mem _ hm)
        · exact .inr ⟨m', List.mem_cons_of_mem _ hm, rfl⟩

/-- The marks after a value has been put in front of the queue: as many, and the outermost moved. -/
theorem insertBeforeMark_marks (h : q.insertBeforeMark v = .ok q') :
    ∃ i, q'.marks = moveOutermost i q.marks := by
  unfold insertBeforeMark at h
  split at h
  · cases h
  · cases h
    refine ⟨(q.insertAfter none v).1, ?_⟩
    change moveOutermost _ (q.insertAfter none v).2.marks = _
    rw [insertAfter_marks]
    rfl

theorem Sound.insertBeforeMark (h : q.Sound) (hi : q.insertBeforeMark v = .ok q') :
    q'.Sound ∧ q'.toList = v :: q.toList := by
  obtain ⟨is, hc⟩ := h
  unfold MarkedQueue.insertBeforeMark at hi
  split at hi
  · cases hi
  · cases hi
    have hins := Chain.insertAfter [] is hc v
    have hmarks : ∀ m ∈ moveOutermost (q.insertAfter none v).1 (q.insertAfter none v).2.marks,
        ∀ i, m.after = some i → i ∈ (q.insertAfter none v).1 :: is := by
      intro m hm i ha
      rw [insertAfter_marks] at hm
      rcases moveOutermost_mem hm with hm | ⟨m', -, rfl⟩
      · exact List.mem_cons_of_mem _ (hc.marks m hm i ha)
      · exact (Option.some.inj ha) ▸ List.mem_cons_self
    refine ⟨⟨_, hins.chain.withMarks hmarks⟩, ?_⟩
    exact ((hins.chain.withMarks hmarks).toList_eq.trans hins.chain.toList_eq.symm).trans
      (hins.toList_eq.trans (by rw [hc.toList_eq]; rfl))

theorem Sound.pushMark (h : q.Sound) : q.pushMark.Sound := by
  obtain ⟨is, hc⟩ := h
  refine ⟨is, hc.withMarks fun m hm i ha => ?_⟩
  rcases List.mem_cons.1 hm with rfl | hm
  · exact List.mem_of_getLast? (hc.tail ▸ ha)
  · exact hc.marks m hm i ha

@[simp] theorem toList_pushMark (q : MarkedQueue α) : q.pushMark.toList = q.toList :=
  toList_congr rfl rfl

theorem popMark_ok (h : q.popMark = .ok q') : ∃ m, q.marks = m :: q'.marks ∧
    q' = { q with marks := q'.marks } := by
  unfold popMark at h
  split at h
  · cases h
  · next m marks hm =>
    cases h
    exact ⟨m, hm, rfl⟩

theorem Sound.popMark (h : q.Sound) (hp : q.popMark = .ok q') : q'.Sound := by
  obtain ⟨is, hc⟩ := h
  obtain ⟨m, hm, hq⟩ := popMark_ok hp
  rw [hq]
  exact ⟨is, hc.withMarks fun m' hm' => hc.marks m' (hm ▸ List.mem_cons_of_mem _ hm')⟩

theorem toList_popMark (h : q.popMark = .ok q') : q'.toList = q.toList := by
  obtain ⟨m, hm, hq⟩ := popMark_ok h
  rw [hq]
  exact toList_congr rfl rfl

def Uncommitted (q : MarkedQueue α) : Prop := ∀ m ∈ q.marks, m.committed = false

theorem Uncommitted.pushMark (h : q.Uncommitted) : q.pushMark.Uncommitted := by
  intro m hm
  rcases List.mem_cons.1 hm with rfl | hm
  · rfl
  · exact h m hm

theorem Uncommitted.popMark (h : q.Uncommitted) (hp : q.popMark = .ok q') : q'.Uncommitted := by
  obtain ⟨m, hm, -⟩ := popMark_ok hp
  exact fun m' hm' => h m' (hm ▸ List.mem_cons_of_mem _ hm')

theorem Uncommitted.insertBeforeMark (h : q.Uncommitted) (hi : q.insertBeforeMark v = .ok q') :
    q'.Uncommitted := by
  obtain ⟨i, hm⟩ := insertBeforeMark_marks hi
  intro m hmem
  rw [hm] at hmem
  rcases moveOutermost_mem hmem with hold | ⟨m', hold, rfl⟩
  · exact h m hold
  · exact h m' hold

theorem exists_popMark (hm : q.marks ≠ []) : ∃ q', q.popMark = .ok q' := by
  unfold popMark
  split
  · next he => exact absurd he hm
  · exact ⟨_, rfl⟩

theorem exists_insertBeforeMark (hm : q.marks ≠ []) (v : α) :
    ∃ q', q.insertBeforeMark v = .ok q' := by
  unfold insertBeforeMark
  rw [if_neg (by simpa using hm)]
  exact ⟨_, rfl⟩

theorem Uncommitted.exists_activeMark (h : q.Uncommitted) (hm : q.marks ≠ []) :
    ∃ m, q.activeMark? = some m := by
  unfold activeMark?
  cases hq : q.marks with
  | nil => exact absurd hq hm
  | cons m marks => exact ⟨m, by simp [h m (hq ▸ List.mem_cons_self)]⟩

theorem Uncommitted.exists_insertAtMark (h : q.Uncommitted) (hm : q.marks ≠ []) (v : α) :
    ∃ q', q.insertAtMark v = .ok q' := by
  obtain ⟨m, ha⟩ := h.exists_activeMark hm
  unfold MarkedQueue.insertAtMark
  rw [ha]
  exact ⟨_, rfl⟩

theorem Chain.get {i : Nat} {rest : List Nat} (h : q.Chain (i :: rest)) (hm : q.marks = []) :
    ∃ v q', q.get = .ok (some v, q') ∧ q'.Chain rest ∧ q'.marks = [] ∧
      q.toList = v :: q'.toList := by
  obtain ⟨v, hv⟩ := Option.isSome_iff_exists.1 (h.occupied i List.mem_cons_self)
  have hnext : q.following (some i) = rest.head? := by simpa using h.links [i] rest rfl
  obtain ⟨hi, hrest⟩ := List.nodup_cons.1 h.nodup
  let q' : MarkedQueue α := { q with
    nodes := q.nodes.modify i (fun node => { node with value := none })
    free := i :: q.free
    head := rest.head?
    tail := if rest.head?.isNone then none else q.tail
    length := q.length - 1 }
  have hget : q.get = .ok (some v, q') := by
    simp [MarkedQueue.get, hasMark, hm, h.head, hv, hnext, q']
  have hvalue : ∀ j ∈ rest, q'.valueAt? j = q.valueAt? j := by
    intro j hj
    have hij : i ≠ j := fun hij => hi (hij ▸ hj)
    simp [q', valueAt?, Array.getElem?_modify, hij]
  have hplace : ∀ j, q'.following (some j) = q.following (some j) := by
    intro j
    simp only [q', following, Array.getElem?_modify]
    split
    · cases q.nodes[j]? <;> rfl
    · rfl
  have hlinks : ∀ pre post, rest = pre ++ post → q'.following pre.getLast? = post.head? := by
    intro pre post hs
    cases hl : pre.getLast? with
    | none =>
      obtain rfl := List.getLast?_eq_none_iff.1 hl
      exact congrArg List.head? hs
    | some j =>
      have hc : (i :: pre).getLast? = some j := by rw [List.getLast?_cons, hl]; rfl
      rw [hplace, ← hc]
      exact h.links (i :: pre) post (congrArg (i :: ·) hs)
  have htail : q'.tail = rest.getLast? := by
    change (if rest.head?.isNone then none else q.tail) = _
    rw [h.tail]
    cases rest <;> simp
  have hchain : q'.Chain rest :=
    { nodup := hrest
      occupied := fun j hj => by
        rw [hvalue j hj]
        exact h.occupied j (List.mem_cons_of_mem _ hj)
      links := hlinks
      tail := htail
      length := by simp [q', h.length]
      free_nodup :=
        List.nodup_cons.2 ⟨fun hf => h.free_notMem i hf List.mem_cons_self, h.free_nodup⟩
      free_lt := by
        intro k hk
        rw [show q'.nodes.size = q.nodes.size from Array.size_modify]
        rcases List.mem_cons.1 hk with rfl | hk
        · exact h.lt_size List.mem_cons_self
        · exact h.free_lt k hk
      free_notMem := by
        intro k hk hr
        rcases List.mem_cons.1 hk with rfl | hk
        · exact hi hr
        · exact h.free_notMem k hk (List.mem_cons_of_mem _ hr)
      size := by
        have hs := h.size
        simp only [List.length_cons, q', Array.size_modify] at hs ⊢
        omega
      marks := by simp [q', hm] }
  refine ⟨v, q', hget, hchain, hm, ?_⟩
  have hcons : q.valuesAt (i :: rest) = v :: q.valuesAt rest := List.filterMap_cons_some hv
  rw [h.toList_eq, hchain.toList_eq, hcons, valuesAt_congr hvalue]

theorem hasOutput_iff (h : q.Sound) : q.hasOutput = true ↔ q.marks = [] ∧ q.toList ≠ [] := by
  obtain ⟨is, hc⟩ := h
  have hl := hc.toList_length
  simp only [hasOutput, needsMore, hasMark, isEmpty, Bool.not_or, Bool.and_eq_true, Bool.not_not,
    List.isEmpty_iff, Bool.not_eq_true', beq_eq_false_iff_ne, ne_eq, ← hl, List.length_eq_zero_iff]

theorem Sound.toList_eq_nil (h : q.Sound) (ho : q.hasOutput = false) (hm : q.marks = []) :
    q.toList = [] := by
  apply Classical.byContradiction
  intro hne
  rw [(hasOutput_iff h).2 ⟨hm, hne⟩] at ho
  cases ho

/-- Whenever there is output a value can be taken, and it is the first one. -/
theorem Sound.exists_get (h : q.Sound) (ho : q.hasOutput = true) :
    ∃ v q', q.get = .ok (some v, q') ∧ q'.Sound ∧ q'.marks = [] ∧ q.toList = v :: q'.toList := by
  obtain ⟨hm, hne⟩ := (hasOutput_iff h).1 ho
  obtain ⟨is, hc⟩ := h
  cases is with
  | nil => exact absurd hc.toList_eq hne
  | cons i rest =>
    obtain ⟨v, q', hg, hc', hm', hl⟩ := hc.get hm
    exact ⟨v, q', hg, ⟨rest, hc'⟩, hm', hl⟩

end TermStream.MarkedQueue
