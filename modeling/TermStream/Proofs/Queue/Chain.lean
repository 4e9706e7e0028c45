import TermStream.MarkedQueue

namespace TermStream.MarkedQueue

variable {α : Type} {q : MarkedQueue α} {is : List Nat}

/-- The chain of the queue runs through the nodes `is`. -/
structure Chain (q : MarkedQueue α) (is : List Nat) : Prop where
  nodup : is.Nodup
  occupied : ∀ i ∈ is, (q.valueAt? i).isSome
  /-- The node behind any place in the chain is the next one. -/
  links : ∀ pre post, is = pre ++ post → q.following pre.getLast? = post.head?
  tail : q.tail = is.getLast?
  length : q.length = is.length
  free_nodup : q.free.Nodup
  free_lt : ∀ i ∈ q.free, i < q.nodes.size
  free_notMem : ∀ i ∈ q.free, i ∉ is
  size : q.nodes.size = is.length + q.free.length
  marks : ∀ m ∈ q.marks, ∀ i, m.after = some i → i ∈ is

def valuesAt (q : MarkedQueue α) (is : List Nat) : List α := is.filterMap q.valueAt?

theorem empty_chain : (empty : MarkedQueue α).Chain [] where
  nodup := .nil
  occupied := nofun
  links := by
    intro pre post h
    obtain ⟨rfl, rfl⟩ := List.append_eq_nil_iff.1 h.symm
    rfl
  tail := rfl
  length := rfl
  free_nodup := .nil
  free_lt := nofun
  free_notMem := nofun
  size := rfl
  marks := nofun

theorem valueAt?_lt {i : Nat} (h : (q.valueAt? i).isSome) : i < q.nodes.size := by
  unfold valueAt? at h
  cases hn : q.nodes[i]? with
  | none => simp [hn] at h
  | some node => exact (Array.getElem?_eq_some_iff.1 hn).1

namespace Chain

theorem head (h : q.Chain is) : q.head = is.head? := h.links [] is rfl

theorem lt_size (h : q.Chain is) {i : Nat} (hi : i ∈ is) : i < q.nodes.size :=
  valueAt?_lt (h.occupied i hi)

theorem valuesFrom_eq (h : q.Chain is) {fuel : Nat} (pre : List Nat) {post : List Nat}
    (hs : is = pre ++ post) (hf : post.length ≤ fuel) :
    q.valuesFrom fuel (q.following pre.getLast?) = q.valuesAt post := by
  rw [h.links pre post hs]
  induction post generalizing pre fuel with
  | nil => cases fuel <;> rfl
  | cons i post ih =>
    cases fuel with
    | zero => exact absurd hf (Nat.not_succ_le_zero _)
    | succ fuel =>
      have hs' : is = (pre ++ [i]) ++ post := by simpa using hs
      have hn : q.following (some i) = post.head? := by simpa using h.links (pre ++ [i]) post hs'
      obtain ⟨v, hv⟩ := Option.isSome_iff_exists.1 (h.occupied i (by simp [hs]))
      simp only [List.head?_cons, valuesFrom, hn, hv, Option.toList_some, valuesAt,
        List.filterMap_cons_some hv, List.singleton_append]
      rw [ih _ hs' (Nat.le_of_succ_le_succ hf)]
      rfl

theorem toList_eq (h : q.Chain is) : q.toList = q.valuesAt is := by
  have hle : is.length ≤ q.nodes.size := by rw [h.size]; exact Nat.le_add_right _ _
  exact h.valuesFrom_eq [] rfl hle

theorem valuesAt_length (h : q.Chain is) : (q.valuesAt is).length = is.length := by
  have ho := h.occupied
  clear h
  induction is with
  | nil => rfl
  | cons i is ih =>
    obtain ⟨v, hv⟩ := Option.isSome_iff_exists.1 (ho i List.mem_cons_self)
    have hi := ih fun j hj => ho j (List.mem_cons_of_mem _ hj)
    simpa [valuesAt, List.filterMap_cons_some hv] using hi

theorem toList_length (h : q.Chain is) : q.toList.length = q.length := by
  rw [h.toList_eq, h.valuesAt_length, h.length]

end Chain

theorem valuesAt_append (q : MarkedQueue α) (is js : List Nat) :
    q.valuesAt (is ++ js) = q.valuesAt is ++ q.valuesAt js :=
  List.filterMap_append

theorem valuesAt_congr {q' : MarkedQueue α} (h : ∀ i ∈ is, q'.valueAt? i = q.valueAt? i) :
    q'.valuesAt is = q.valuesAt is := by
  induction is with
  | nil => rfl
  | cons i is ih =>
    have hi := ih fun j hj => h j (List.mem_cons_of_mem _ hj)
    unfold valuesAt at hi ⊢
    rw [List.filterMap_cons, List.filterMap_cons, h i List.mem_cons_self, hi]

/-- A node for a new value is not in the chain, and the others stay as they are. -/
structure Allocated (q : MarkedQueue α) (is : List Nat) (node : QueueNode α) (i : Nat)
    (q' : MarkedQueue α) : Prop where
  notMem : i ∉ is
  nodes : ∀ j, q'.nodes[j]? = if j = i then some node else q.nodes[j]?
  head : q'.head = q.head
  tail : q'.tail = q.tail
  marks : q'.marks = q.marks
  length : q'.length = q.length
  free_nodup : q'.free.Nodup
  free_lt : ∀ k ∈ q'.free, k < q'.nodes.size
  free_notMem : ∀ k ∈ q'.free, k ∉ is ∧ k ≠ i
  size : q'.nodes.size = is.length + 1 + q'.free.length

theorem Chain.allocate (h : q.Chain is) (node : QueueNode α) :
    q.Allocated is node (q.allocate node).1 (q.allocate node).2 := by
  unfold MarkedQueue.allocate
  have hsize := h.size
  cases hf : q.free with
  | nil =>
    rw [hf] at hsize
    refine ⟨fun hi => absurd (h.lt_size hi) (Nat.lt_irrefl _), ?_, rfl, rfl, rfl, rfl, ?_, ?_, ?_,
      ?_⟩
    · intro j
      rw [Array.getElem?_push]
    · exact .nil
    · simp
    · simp
    · simpa [hf] using hsize
  | cons i free =>
    have hn := hf ▸ h.free_nodup
    have hi : i ∈ q.free := hf ▸ List.mem_cons_self
    rw [hf] at hsize
    refine ⟨h.free_notMem i hi, ?_, rfl, rfl, rfl, rfl, ?_, ?_, ?_, ?_⟩
    · intro j
      simp only [Array.getElem?_setIfInBounds, h.free_lt i hi, if_true, eq_comm]
    · exact (List.nodup_cons.1 hn).2
    · intro k hk
      simpa using h.free_lt k (hf ▸ List.mem_cons_of_mem _ hk)
    · intro k hk
      refine ⟨h.free_notMem k (hf ▸ List.mem_cons_of_mem _ hk), ?_⟩
      rintro rfl
      exact (List.nodup_cons.1 hn).1 hk
    · simp only [List.length_cons, Array.size_setIfInBounds] at hsize ⊢
      omega

/-- The value `v` has been put into a new node `i` behind the nodes `pre`. -/
structure Inserted (q : MarkedQueue α) (pre post : List Nat) (v : α) (i : Nat)
    (q' : MarkedQueue α) : Prop where
  chain : q'.Chain (pre ++ i :: post)
  notMem : i ∉ pre ++ post
  value : q'.valueAt? i = some v
  others : ∀ j, j ≠ i → q'.valueAt? j = q.valueAt? j
  marks : q'.marks = q.marks

theorem nodes_link (q : MarkedQueue α) (after : Option Nat) (i j : Nat) :
    (q.link after i).nodes[j]? =
      (if after = some j then q.nodes[j]?.map ({ · with next := some i }) else q.nodes[j]?) := by
  cases after with
  | none => rfl
  | some k =>
    simp only [link, Array.getElem?_modify, Option.some.injEq]

theorem head_link (q : MarkedQueue α) (after : Option Nat) (i : Nat) :
    (q.link after i).head = if after = none then some i else q.head := by
  cases after <;> rfl

theorem link_rest (q : MarkedQueue α) (after : Option Nat) (i : Nat) :
    (q.link after i).tail = q.tail ∧ (q.link after i).marks = q.marks ∧
      (q.link after i).length = q.length ∧ (q.link after i).free = q.free ∧
      (q.link after i).nodes.size = q.nodes.size := by
  cases after <;> simp [link]

theorem eq_nil_of_getLast? {pre mid : List Nat} (hn : (pre ++ mid).Nodup)
    (hl : pre.getLast? = (pre ++ mid).getLast?) : mid = [] := by
  cases hm : mid.getLast? with
  | none => exact List.getLast?_eq_none_iff.1 hm
  | some i =>
    rw [List.getLast?_append, hm] at hl
    have hd := (List.nodup_append.1 hn).2.2
    exact absurd rfl (hd i (List.mem_of_getLast? hl) i (List.mem_of_getLast? hm))

theorem following_link {q₁ : MarkedQueue α} {after : Option Nat} {node : QueueNode α} {i : Nat}
    (hn : ∀ j, q₁.nodes[j]? = if j = i then some node else q.nodes[j]?)
    (hh : q₁.head = q.head) (hi : after ≠ some i) (ho : ∀ j, after = some j → j < q.nodes.size)
    (place : Option Nat) :
    (q₁.link after i).following place =
      if place = some i then node.next
      else if place = after then some i
      else q.following place := by
  cases place with
  | none =>
    rw [if_neg nofun]
    unfold following
    dsimp only
    rw [head_link, hh]
    simp [eq_comm]
  | some j =>
    unfold following
    dsimp only
    rw [nodes_link, hn]
    by_cases hj : j = i
    · subst hj
      simp [hi]
    · by_cases hja : after = some j
      · simp [hj, hja, ho j hja]
      · simp [hj, hja, Ne.symm hja]

/-- The chain with a new node in it. -/
theorem Chain.links_insert {q' : MarkedQueue α} {pre post : List Nat} {i : Nat}
    (h : q.Chain (pre ++ post)) (hi : i ∉ pre ++ post)
    (hf : ∀ place, q'.following place =
      if place = some i then q.following pre.getLast?
      else if place = pre.getLast? then some i
      else q.following place)
    (pre' post' : List Nat) (hs : pre ++ i :: post = pre' ++ post') :
    q'.following pre'.getLast? = post'.head? := by
  -- places other than the two at the new node are where they were
  have hold : ∀ front back, pre ++ post = front ++ back → front.getLast? ≠ pre.getLast? →
      q'.following front.getLast? = back.head? := by
    intro front back hs hne
    have hni : front.getLast? ≠ some i := fun hl =>
      hi (hs ▸ List.mem_append_left _ (List.mem_of_getLast? hl))
    rw [hf, if_neg hni, if_neg hne, h.links front back hs]
  rcases List.append_eq_append_iff.1 hs with ⟨mid, rfl, hm⟩ | ⟨mid, rfl, rfl⟩
  · cases mid with
    | nil =>
      have hni : pre.getLast? ≠ some i := fun hl =>
        hi (List.mem_append_left _ (List.mem_of_getLast? hl))
      obtain rfl : post' = i :: post := hm.symm
      rw [List.append_nil, hf, if_neg hni, if_pos rfl]
      rfl
    | cons k mid =>
      simp only [List.cons_append, List.cons.injEq] at hm
      obtain ⟨rfl, rfl⟩ := hm
      cases mid with
      | nil =>
        rw [List.getLast?_append]
        change q'.following (some i) = post'.head?
        rw [hf, if_pos rfl]
        exact h.links pre post' rfl
      | cons k mid =>
        have hlast : (pre ++ i :: k :: mid).getLast? = (pre ++ k :: mid).getLast? := by
          rw [List.getLast?_append, List.getLast?_append, List.getLast?_cons_cons]
        rw [hlast]
        refine hold _ _ (List.append_assoc _ _ _).symm fun hl => ?_
        have hn := (List.nodup_append.1 (List.append_assoc pre _ post' ▸ h.nodup)).1
        exact absurd (eq_nil_of_getLast? hn hl.symm) nofun
  · cases mid with
    | nil =>
      have hni : pre'.getLast? ≠ some i := fun hl =>
        hi (List.mem_append_left _ (by simpa using List.mem_of_getLast? hl))
      rw [hf, if_neg hni, if_pos (by simp)]
      rfl
    | cons k mid =>
      have hs' : pre' ++ k :: mid ++ post = pre' ++ (k :: mid ++ post) := List.append_assoc _ _ _
      refine hold pre' (k :: mid ++ post) hs' fun hl => ?_
      have hn := (List.nodup_append.1 h.nodup).1
      exact absurd (eq_nil_of_getLast? hn hl) nofun

theorem insertAfter_eq (q : MarkedQueue α) (after : Option Nat) (v : α) :
    q.insertAfter after v =
      ((q.allocate ⟨some v, q.following after⟩).1,
        { (q.allocate ⟨some v, q.following after⟩).2.link after
            (q.allocate ⟨some v, q.following after⟩).1 with
          tail := if (q.following after).isNone then
              some (q.allocate ⟨some v, q.following after⟩).1
            else ((q.allocate ⟨some v, q.following after⟩).2.link after
              (q.allocate ⟨some v, q.following after⟩).1).tail
          length := ((q.allocate ⟨some v, q.following after⟩).2.link after
              (q.allocate ⟨some v, q.following after⟩).1).length + 1 }) := rfl

theorem Chain.insertAfter (pre post : List Nat) (h : q.Chain (pre ++ post)) (v : α) :
    q.Inserted pre post v (q.insertAfter pre.getLast? v).1 (q.insertAfter pre.getLast? v).2 := by
  have ha := h.allocate ⟨some v, q.following pre.getLast?⟩
  rw [insertAfter_eq]
  generalize q.allocate ⟨some v, q.following pre.getLast?⟩ = r at ha ⊢
  obtain ⟨i, q₁⟩ := r
  obtain ⟨htail, hmarks, hlength, hfree, hsize⟩ := link_rest q₁ pre.getLast? i
  have hlast : pre.getLast? ≠ some i := fun hl =>
    ha.notMem (List.mem_append_left _ (List.mem_of_getLast? hl))
  have hnodes : ∀ j, (q₁.link pre.getLast? i).nodes[j]? =
      if j = i then some ⟨some v, q.following pre.getLast?⟩
      else if pre.getLast? = some j then q.nodes[j]?.map ({ · with next := some i })
      else q.nodes[j]? := by
    intro j
    rw [nodes_link, ha.nodes]
    by_cases hj : j = i
    · subst hj
      simp [hlast]
    · simp [hj]
  have hvalue : ∀ j, (q₁.link pre.getLast? i).valueAt? j =
      if j = i then some v else q.valueAt? j := by
    intro j
    unfold valueAt?
    rw [hnodes]
    split
    · rfl
    · split
      · cases q.nodes[j]? <;> rfl
      · rfl
  have hnext : q.following pre.getLast? = post.head? := h.links pre post rfl
  have hlt : ∀ j, pre.getLast? = some j → j < q.nodes.size := fun j hj =>
    h.lt_size (List.mem_append_left _ (List.mem_of_getLast? hj))
  refine ⟨?_, ha.notMem, by simpa [valueAt?] using hvalue i, ?_, hmarks.trans ha.marks⟩
  · refine
      { nodup := ?_, occupied := ?_, links := ?_, tail := ?_, length := ?_, free_nodup := ?_,
        free_lt := ?_, free_notMem := ?_, size := ?_, marks := ?_ }
    · exact List.perm_middle.nodup_iff.2 (List.nodup_cons.2 ⟨ha.notMem, h.nodup⟩)
    · intro j hj
      change ((q₁.link pre.getLast? i).valueAt? j).isSome
      rw [hvalue]
      split
      · rfl
      · next hji => exact h.occupied j (by simpa [hji] using hj)
    · exact h.links_insert ha.notMem (following_link ha.nodes ha.head hlast hlt)
    · change (if (q.following pre.getLast?).isNone then some i
        else (q₁.link pre.getLast? i).tail) = _
      rw [hnext, htail, ha.tail, h.tail]
      cases post with
      | nil => simp
      | cons j post => simp
    · change (q₁.link pre.getLast? i).length + 1 = _
      rw [hlength, ha.length, h.length]
      simp [Nat.add_assoc]
    · exact hfree ▸ ha.free_nodup
    · intro k hk
      exact hsize ▸ ha.free_lt k (hfree ▸ hk)
    · intro k hk
      obtain ⟨hn, hi⟩ := ha.free_notMem k (hfree ▸ hk)
      simpa [hi] using hn
    · change (q₁.link pre.getLast? i).nodes.size = _ + (q₁.link pre.getLast? i).free.length
      rw [hsize, hfree, ha.size]
      simp [Nat.add_assoc]
    · intro m hm j hj
      have hmem := h.marks m (ha.marks ▸ hmarks ▸ hm) j hj
      rcases List.mem_append.1 hmem with hp | hp
      · exact List.mem_append_left _ hp
      · exact List.mem_append_right _ (List.mem_cons_of_mem _ hp)
  · intro j hj
    change (q₁.link pre.getLast? i).valueAt? j = _
    rw [hvalue, if_neg hj]

end TermStream.MarkedQueue
