import TermStream.Proofs.Queue.Contents

namespace TermStream.MarkedQueue

variable {α : Type} {q q' : MarkedQueue α} {v : α} {front back : List α} {m : Mark}

/-- The innermost active mark stands behind the values `front` and in front of the values `back`. -/
def Parts (q : MarkedQueue α) (front back : List α) : Prop :=
  ∃ pre post m, q.Chain (pre ++ post) ∧ q.activeMark? = some m ∧ m.after = pre.getLast? ∧
    front = q.valuesAt pre ∧ back = q.valuesAt post

theorem Parts.toList_eq (h : q.Parts front back) : q.toList = front ++ back := by
  obtain ⟨pre, post, m, hc, -, -, rfl, rfl⟩ := h
  rw [hc.toList_eq, valuesAt_append]

theorem Parts.peekAtMark?_eq (h : q.Parts front back) : q.peekAtMark? = back.head? := by
  obtain ⟨pre, post, m, hc, ha, hm, -, rfl⟩ := h
  simp only [peekAtMark?, ha]
  rw [hm, hc.links pre post rfl]
  cases post with
  | nil => rfl
  | cons i post =>
    obtain ⟨v, hv⟩ := Option.isSome_iff_exists.1 (hc.occupied i (by simp))
    rw [valuesAt, List.filterMap_cons_some hv]
    exact hv

theorem Parts.marks_ne_nil (h : q.Parts front back) : q.marks ≠ [] := by
  obtain ⟨pre, post, m, -, ha, -⟩ := h
  exact List.ne_nil_of_mem (List.mem_of_find?_eq_some ha)

theorem Sound.exists_parts (h : q.Sound) (ha : q.activeMark? = some m) :
    ∃ front back, q.Parts front back := by
  obtain ⟨is, hc⟩ := h
  obtain ⟨pre, post, rfl, hm⟩ := hc.split_at_mark (List.mem_of_find?_eq_some ha)
  exact ⟨_, _, pre, post, m, hc, ha, hm, rfl, rfl⟩

theorem Parts.insertAtMark (h : q.Parts front back) (hi : q.insertAtMark v = .ok q') :
    q'.toList = front ++ v :: back := by
  obtain ⟨pre, post, m, hc, ha, hm, rfl, rfl⟩ := h
  simp only [MarkedQueue.insertAtMark, ha] at hi
  cases hi
  rw [hm]
  exact (hc.insertAfter pre post v).toList_eq

theorem Sound.pushMark_parts (h : q.Sound) : q.pushMark.Parts q.toList [] := by
  obtain ⟨is, hc⟩ := Sound.pushMark h
  refine ⟨is, [], ⟨q.tail, false⟩, by rwa [List.append_nil], rfl, hc.tail, ?_, rfl⟩
  rw [← hc.toList_eq, toList_pushMark]

theorem Parts.append (h : q.Parts front back) (v : α) :
    (q.append v).Parts front (back ++ [v]) := by
  obtain ⟨pre, post, m, hc, ha, hm, rfl, rfl⟩ := h
  obtain ⟨i, hi⟩ := hc.append v
  have hpre : (q.append v).valuesAt pre = q.valuesAt pre :=
    hi.valuesAt_eq fun j hj => by simp [hj]
  have hpost : (q.append v).valuesAt post = q.valuesAt post :=
    hi.valuesAt_eq fun j hj => by simp [hj]
  refine ⟨pre, post ++ [i], m, by simpa using hi.chain, ?_, hm, hpre.symm, ?_⟩
  · rw [activeMark?, append_marks]
    exact ha
  · have hlast : (q.append v).valuesAt [i] = [v] := List.filterMap_cons_some hi.value
    rw [valuesAt_append, hpost, hlast]

/-- The outermost mark stands in front of the queue, if there is a mark. -/
def Fronted (q : MarkedQueue α) : Prop := ∀ m ∈ q.marks.getLast?, m.after = none

theorem empty_fronted : (empty : MarkedQueue α).Fronted := nofun

theorem Fronted.of_marks_eq (h : q.Fronted) (hm : q'.marks = q.marks) : q'.Fronted := by
  intro m hmem
  rw [hm] at hmem
  exact h m hmem

theorem Fronted.of_marks_cons (h : q.Fronted) (hm : q.marks = m :: q'.marks) : q'.Fronted := by
  intro m' hmem
  cases hq : q'.marks with
  | nil => simp [hq] at hmem
  | cons m₁ marks =>
    rw [hq] at hmem hm
    apply h m'
    rwa [hm, List.getLast?_cons_cons]

theorem Fronted.pushMark (h : q.Fronted) (hs : q.Sound) (he : q.marks = [] → q.toList = []) :
    q.pushMark.Fronted := by
  intro m hmem
  change m ∈ (⟨q.tail, false⟩ :: q.marks : List Mark).getLast? at hmem
  cases hm : q.marks with
  | nil =>
    obtain ⟨is, hc⟩ := hs
    have hl := hc.toList_length
    rw [he hm, hc.length] at hl
    obtain rfl := List.length_eq_zero_iff.1 hl.symm
    rw [hm, hc.tail] at hmem
    cases hmem
    rfl
  | cons m₁ marks =>
    rw [hm, List.getLast?_cons_cons] at hmem
    exact h m (hm ▸ hmem)

/-- A single mark has all values behind it. -/
theorem Parts.front_eq_nil (h : q.Parts front back) (hf : q.Fronted) (hc : q.markCount = 1) :
    front = [] := by
  obtain ⟨pre, post, m, -, ha, hm, rfl, -⟩ := h
  obtain ⟨m', hmarks⟩ := List.length_eq_one_iff.1 hc
  have hmem := List.mem_of_find?_eq_some ha
  rw [hmarks] at hmem
  obtain rfl := List.mem_singleton.1 hmem
  have hafter := hf m (by rw [hmarks]; rfl)
  rw [hm, List.getLast?_eq_none_iff] at hafter
  rw [hafter]
  rfl

end TermStream.MarkedQueue
