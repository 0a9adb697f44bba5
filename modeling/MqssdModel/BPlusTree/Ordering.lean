import MqssdModel.BPlusTree.Shape

namespace MqssdModel.BPlusTree.Ordering

open Data.Rows Machine Caching Views Shape

def keysAt (st : Store) (o : ℤ) : List ℤ :=
  match content st o with
  | some c => c.keys
  | none => []

def pairsAt (st : Store) (o : ℤ) : List (ℤ × ℤ) :=
  match content st o with
  | some c => c.keys.zip c.vals
  | none => []

/-- The entries of the leaves from left to right. -/
def entries (st : Store) (w : Row) : List (ℤ × ℤ) := (nodes w).flatMap (pairsAt st)

/-- The separators and the keys of a row of leaves, from left to right. A separator is at most the
keys right of it and above those left of it, so it is counted as a half less than a key. -/
def marks (st : Store) (w : Row) : List ℤ :=
  w.flatMap fun
    | .node o => (keysAt st o).map fun k ↦ 2 * k + 1
    | .sep k => [2 * k]

def Ordered (st : Store) (w : Row) : Prop := (marks st w).Pairwise (· < ·)

/-- The row between `a` and `b` is where the search for `k` goes on. -/
structure Focus (k : ℤ) (a b : Row) : Prop where
  left : a = [] ∨ ∃ a' s, a = a' ++ [.sep s] ∧ s ≤ k
  right : b = [] ∨ ∃ s b', b = .sep s :: b' ∧ k < s

variable {st st' : Store} {w w' a b : Row} {o k : ℤ} {c : Content} {ks ks₁ ks₂ vs₁ vs₂ : List ℤ}

section Marks

theorem keysAt_eq (h : content st o = some c) : keysAt st o = c.keys := by rw [keysAt, h]

theorem pairsAt_eq (h : content st o = some c) : pairsAt st o = c.keys.zip c.vals := by
  rw [pairsAt, h]

@[simp] theorem marks_nil : marks st [] = [] := rfl

@[simp] theorem marks_cons_node :
    marks st (.node o :: w) = ((keysAt st o).map fun k ↦ 2 * k + 1) ++ marks st w := rfl

@[simp] theorem marks_cons_sep : marks st (.sep k :: w) = 2 * k :: marks st w := rfl

@[simp] theorem marks_append : marks st (w ++ w') = marks st w ++ marks st w' :=
  List.flatMap_append

theorem marks_congr (h : ∀ o ∈ nodes w, content st' o = content st o) :
    marks st' w = marks st w := by
  induction w with
  | nil => rfl
  | cons x w ih =>
    cases x with
    | node o =>
      rw [marks_cons_node, marks_cons_node, keysAt, h o List.mem_cons_self, ← keysAt,
        ih fun o ho ↦ h o (List.mem_cons_of_mem _ ho)]
    | sep k => rw [marks_cons_sep, marks_cons_sep, ih h]

@[simp] theorem entries_nil : entries st [] = [] := rfl

@[simp] theorem entries_cons_node : entries st (.node o :: w) = pairsAt st o ++ entries st w := rfl

@[simp] theorem entries_cons_sep : entries st (.sep k :: w) = entries st w := rfl

@[simp] theorem entries_append : entries st (w ++ w') = entries st w ++ entries st w' := by
  rw [entries, nodes_append, List.flatMap_append]
  rfl

theorem entries_congr (h : ∀ o ∈ nodes w, content st' o = content st o) :
    entries st' w = entries st w :=
  List.flatMap_congr fun o ho ↦ by rw [pairsAt, h o ho, ← pairsAt]

theorem mem_marks_sep (h : k ∈ seps w) : 2 * k ∈ marks st w := by
  induction w with
  | nil => exact absurd h List.not_mem_nil
  | cons x w ih =>
    cases x with
    | node o => exact List.mem_append_right _ (ih h)
    | sep s =>
      rcases List.mem_cons.mp h with rfl | h
      · exact List.mem_cons_self
      · exact List.mem_cons_of_mem _ (ih h)

theorem mem_marks_key (ho : o ∈ nodes w) (hk : k ∈ keysAt st o) : 2 * k + 1 ∈ marks st w := by
  obtain ⟨a, b, rfl⟩ := exists_focus ho
  rw [marks_append, marks_cons_node]
  exact List.mem_append_right _ (List.mem_append_left _ (List.mem_map_of_mem hk))

theorem marks_seps_sublist : ((seps w).map fun k ↦ 2 * k).Sublist (marks st w) := by
  induction w with
  | nil => exact .slnil
  | cons x w ih =>
    cases x with
    | node o => exact ih.trans (List.sublist_append_right _ _)
    | sep k => exact ih.cons_cons _

theorem Ordered.seps (h : Ordered st w) : (seps w).Pairwise (· < ·) := by
  have hs := (List.pairwise_map.mp (h.sublist marks_seps_sublist))
  exact hs.imp fun h ↦ by omega

theorem Ordered.keys (h : Ordered st w) (ho : o ∈ nodes w) :
    (keysAt st o).Pairwise (· < ·) := by
  obtain ⟨a, b, rfl⟩ := exists_focus ho
  rw [Ordered, marks_append, marks_cons_node] at h
  have hk := List.pairwise_map.mp (List.pairwise_append.mp (List.pairwise_append.mp h).2.1).1
  exact hk.imp fun h ↦ by omega

/-- The keys of the leaves, in the order of the marks. -/
theorem keys_entries_sublist (h : ∀ o ∈ nodes w, ∃ c, content st o = some c ∧
      c.keys.length = c.vals.length) :
    ((entries st w).map fun e ↦ 2 * e.1 + 1).Sublist (marks st w) := by
  induction w with
  | nil => exact .slnil
  | cons x w ih =>
    cases x with
    | node o =>
      obtain ⟨c, hc, hlen⟩ := h o List.mem_cons_self
      have hzip : (pairsAt st o).map (fun e ↦ 2 * e.1 + 1) = (keysAt st o).map fun k ↦ 2 * k + 1 := by
        rw [pairsAt_eq hc, keysAt_eq hc]
        have hfst : (c.keys.zip c.vals).map Prod.fst = c.keys := List.map_fst_zip hlen.le
        conv_rhs => rw [← hfst]
        rw [List.map_map]
        rfl
      rw [entries_cons_node, List.map_append, hzip, marks_cons_node]
      exact (List.Sublist.refl _).append (ih fun o ho ↦ h o (List.mem_cons_of_mem _ ho))
    | sep k => exact (ih h).cons _

theorem Ordered.entries (h : Ordered st w) (hw : ∀ o ∈ nodes w, ∃ c, content st o = some c ∧
      c.keys.length = c.vals.length) :
    ((entries st w).map Prod.fst).Pairwise (· < ·) := by
  have hs := List.pairwise_map.mp (h.sublist (keys_entries_sublist hw))
  exact List.pairwise_map.mpr (hs.imp fun h ↦ by omega)

end Marks

section Focus

theorem focus_nil : Focus k [] [] := ⟨Or.inl rfl, Or.inl rfl⟩

/-- The search one level down, among the children `vs₁`, `o`, `vs₂`. -/
theorem Focus.below {e : ℤ → Row} (h : Focus k a b) (h₁ : ∀ x ∈ ks₁, x ≤ k)
    (h₂ : ∀ x ∈ ks₂, k < x) (hl : ks₁.length = vs₁.length) (hr : ks₂.length = vs₂.length) :
    Focus k (expand e a ++ lefts ks₁ vs₁) (rights ks₂ vs₂ ++ expand e b) := by
  constructor
  · rcases List.eq_nil_or_concat' ks₁ with rfl | ⟨ks, x, rfl⟩
    · obtain rfl := List.eq_nil_of_length_eq_zero hl.symm
      rcases h.left with rfl | ⟨a', s, rfl, hs⟩
      · exact Or.inl rfl
      · exact Or.inr ⟨expand e a', s, by simp [lefts], hs⟩
    · rcases List.eq_nil_or_concat' vs₁ with rfl | ⟨vs, v, rfl⟩
      · simp at hl
      · have hlen : ks.length = vs.length := by simpa using hl
        refine Or.inr ⟨expand e a ++ lefts ks vs ++ [.node v], x, ?_, h₁ x (by simp)⟩
        rw [lefts_concat hlen]
        simp
  · cases ks₂ with
    | nil =>
      obtain rfl := List.eq_nil_of_length_eq_zero hr.symm
      rcases h.right with rfl | ⟨s, b', rfl, hs⟩
      · exact Or.inl rfl
      · exact Or.inr ⟨s, expand e b', rfl, hs⟩
    | cons x ks =>
      cases vs₂ with
      | nil => simp at hr
      | cons v vs => exact Or.inr ⟨x, .node v :: rights ks vs ++ expand e b, rfl, h₂ x (by simp)⟩

/-- Everything left of the leaf is below `k`, everything right of it above. -/
theorem Focus.marks (h : Focus k a b) (ho : Ordered st (a ++ .node o :: b)) :
    (∀ x ∈ marks st a, x < 2 * k + 1) ∧ ∀ x ∈ marks st b, 2 * k + 1 < x := by
  rw [Ordered, marks_append, marks_cons_node] at ho
  obtain ⟨hoa, ho', -⟩ := List.pairwise_append.mp ho
  have hob := (List.pairwise_append.mp ho').2.1
  constructor
  · rcases h.left with rfl | ⟨a', s, rfl, hs⟩
    · exact fun x hx ↦ absurd hx List.not_mem_nil
    · intro x hx
      rw [marks_append] at hx hoa
      rcases List.mem_append.mp hx with hx | hx
      · have := (List.pairwise_append.mp hoa).2.2 x hx (2 * s) (by simp)
        omega
      · have : x = 2 * s := by simpa using hx
        omega
  · rcases h.right with rfl | ⟨s, b', rfl, hs⟩
    · exact fun x hx ↦ absurd hx List.not_mem_nil
    · intro x hx
      rw [marks_cons_sep] at hx hob
      rcases List.mem_cons.mp hx with rfl | hx
      · omega
      · have := List.rel_of_pairwise_cons hob hx
        omega

/-- A sorted list cut at `k`. -/
theorem exists_cut (h : ks.Pairwise (· < ·)) (k : ℤ) :
    ∃ ks₁ ks₂, ks = ks₁ ++ ks₂ ∧ (∀ x ∈ ks₁, x ≤ k) ∧ ∀ x ∈ ks₂, k < x := by
  induction ks with
  | nil => exact ⟨[], [], rfl, by simp, by simp⟩
  | cons x ks ih =>
    obtain ⟨ks₁, ks₂, rfl, h₁, h₂⟩ := ih (List.pairwise_cons.mp h).2
    by_cases hx : x ≤ k
    · refine ⟨x :: ks₁, ks₂, rfl, fun y hy ↦ ?_, h₂⟩
      rcases List.mem_cons.mp hy with rfl | hy
      · exact hx
      · exact h₁ y hy
    · refine ⟨[], x :: (ks₁ ++ ks₂), rfl, by simp, fun y hy ↦ ?_⟩
      rcases List.mem_cons.mp hy with rfl | hy
      · omega
      · have := List.rel_of_pairwise_cons h hy
        omega

end Focus

section Cut

variable {xs ys K₁ K₂ : List ℤ} {y k : ℤ}

theorem pairwise_insert (h : (xs ++ ys).Pairwise (· < ·)) (hx : ∀ x ∈ xs, x < y)
    (hy : ∀ z ∈ ys, y < z) : (xs ++ y :: ys).Pairwise (· < ·) := by
  obtain ⟨h₁, h₂, h₁₂⟩ := List.pairwise_append.mp h
  refine List.pairwise_append.mpr ⟨h₁, List.pairwise_cons.mpr ⟨hy, h₂⟩, fun x hm z hz ↦ ?_⟩
  rcases List.mem_cons.mp hz with rfl | hz
  · exact hx x hm
  · exact h₁₂ x hm z hz

/-- A key that is not the first of its leaf can become a separator. -/
theorem pairwise_cut (K₁ : List ℤ) (k : ℤ) (K₂ : List ℤ)
    (h : (xs ++ ((K₁ ++ k :: K₂).map (fun x ↦ 2 * x + 1) ++ ys)).Pairwise (· < ·))
    (hK : K₁ ≠ []) : (xs ++ (K₁.map (fun x ↦ 2 * x + 1) ++
      2 * k :: ((k :: K₂).map (fun x ↦ 2 * x + 1) ++ ys))).Pairwise (· < ·) := by
  rw [List.map_append, List.append_assoc, ← List.append_assoc] at h
  rw [← List.append_assoc]
  refine pairwise_insert h (fun x hx ↦ ?_) fun z hz ↦ ?_
  · obtain ⟨h₁, -, h₁₂⟩ := List.pairwise_append.mp h
    obtain ⟨K, x₀, rfl⟩ := (List.eq_nil_or_concat' K₁).resolve_left hK
    have hlast := h₁₂ (2 * x₀ + 1) (by simp) (2 * k + 1) (by simp)
    rw [List.map_append, ← List.append_assoc] at h₁ hx
    rcases List.mem_append.mp hx with hx | hx
    · have := (List.pairwise_append.mp h₁).2.2 x hx (2 * x₀ + 1) (by simp)
      omega
    · have : x = 2 * x₀ + 1 := by simpa using hx
      omega
  · have hp := (List.pairwise_append.mp h).2.1
    rw [List.map_cons, List.cons_append] at hp hz
    rcases List.mem_cons.mp hz with rfl | hz
    · omega
    · have := List.rel_of_pairwise_cons hp hz
      omega

end Cut

end MqssdModel.BPlusTree.Ordering
