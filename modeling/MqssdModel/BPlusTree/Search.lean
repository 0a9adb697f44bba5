import MqssdModel.BPlusTree.Caching

namespace MqssdModel.BPlusTree.Search

open Data.Arrays Machine Caching

/-- The loop finds the first place `m` at which the array is not below the target. -/
theorem searchLoop_eq {arr : ℤ → ℤ} {target m len : ℤ} (hlt : ∀ i, 0 ≤ i → i < m → arr i < target)
    (hge : ∀ i, m ≤ i → i < len → target ≤ arr i) {gap : ℕ} {low high : ℤ} (hlow : -1 ≤ low)
    (hlm : low < m) (hmh : m ≤ high) (hhigh : high ≤ len) (hgap : high - low ≤ gap) :
    searchLoop arr target gap low high = m := by
  induction gap generalizing low high with
  | zero => omega
  | succ gap ih =>
    unfold searchLoop
    by_cases hstep : low + 1 < high
    · rw [if_pos hstep]
      dsimp only
      by_cases hcmp : target > arr (low + (high - low) / 2)
      · rw [if_pos hcmp]
        have hmid : low + (high - low) / 2 < m := by
          by_contra hc
          have := hge _ (Int.not_lt.mp hc) (by omega)
          omega
        exact ih (by omega) hmid hmh hhigh (by omega)
      · rw [if_neg hcmp]
        have hmid : m ≤ low + (high - low) / 2 := by
          by_contra hc
          exact hcmp (hlt _ (by omega) (by omega))
        exact ih hlow hlm hmid (by omega) (by omega)
    · rw [if_neg hstep]
      omega

variable {n : Node} {key : ℤ} {ks₁ ks₂ : List ℤ}

/-- The first key of `ks₂` is the first one that is not below `key`. -/
theorem search_loop_node (hn : 0 ≤ keyCount n) (hk : (block n).keys = ks₁ ++ ks₂)
    (h₁ : ∀ k ∈ ks₁, k < key) (h₂ : ∀ k ∈ ks₂, key ≤ k) :
    searchLoop n.key key (keyCount n + 1).toNat (-1) (keyCount n) = ks₁.length := by
  have hfront : front n.key (keyCount n).toNat = ks₁ ++ ks₂ := hk
  have hlen := congrArg List.length hfront
  rw [length_front, List.length_append] at hlen
  have hget : ∀ i (hi : i < (ks₁ ++ ks₂).length), n.key i = (ks₁ ++ ks₂)[i] := fun i hi ↦ by
    rw [← List.getElem_of_eq hfront (by rw [hfront]; exact hi), getElem_front]
  refine searchLoop_eq (fun i hi hlt ↦ ?_) (fun i hi hlt ↦ ?_) le_rfl (by omega) (by omega) le_rfl
    (by omega)
  · have hi' : i.toNat < ks₁.length := by omega
    have hv := hget i.toNat (by rw [List.length_append]; omega)
    rw [Int.toNat_of_nonneg hi, List.getElem_append_left hi'] at hv
    rw [hv]
    exact h₁ _ (List.getElem_mem hi')
  · have hi' : ks₁.length ≤ i.toNat := by omega
    have hv := hget i.toNat (by rw [List.length_append]; omega)
    rw [Int.toNat_of_nonneg (by omega), List.getElem_append_right hi'] at hv
    rw [hv]
    exact h₂ _ (List.getElem_mem _)

theorem search_eq (n : Node) (key : ℤ) : keyBinarySearch n key =
    if searchLoop n.key key (keyCount n + 1).toNat (-1) (keyCount n) ≥ keyCount n ∨
      n.key (searchLoop n.key key (keyCount n + 1).toNat (-1) (keyCount n)) ≠ key then
      -searchLoop n.key key (keyCount n + 1).toNat (-1) (keyCount n) - 1
    else searchLoop n.key key (keyCount n + 1).toNat (-1) (keyCount n) := rfl

theorem search_absent (hn : 0 ≤ keyCount n) (hk : (block n).keys = ks₁ ++ ks₂)
    (h₁ : ∀ k ∈ ks₁, k < key) (h₂ : ∀ k ∈ ks₂, key < k) :
    keyBinarySearch n key = -ks₁.length - 1 := by
  rw [search_eq, search_loop_node hn hk h₁ fun k hm ↦ (h₂ k hm).le, if_pos]
  cases ks₂ with
  | nil =>
    have hlen := congrArg List.length (show front n.key (keyCount n).toNat = ks₁ ++ [] from hk)
    rw [length_front, List.append_nil] at hlen
    exact Or.inl (by omega)
  | cons k ks₂ =>
    have hget := getElem?_front (show (front n.key (keyCount n).toNat)[ks₁.length]? = some k by
      rw [show front n.key (keyCount n).toNat = ks₁ ++ k :: ks₂ from hk]
      simp)
    have hlt := h₂ k List.mem_cons_self
    exact Or.inr (by rw [hget.2]; omega)

theorem search_found (hn : 0 ≤ keyCount n) (hk : (block n).keys = ks₁ ++ key :: ks₂)
    (h₁ : ∀ k ∈ ks₁, k < key) (h₂ : ∀ k ∈ ks₂, key < k) : keyBinarySearch n key = ks₁.length := by
  have hge : ∀ k ∈ key :: ks₂, key ≤ k := fun k hm ↦
    (List.mem_cons.mp hm).elim (fun he ↦ he.ge) fun hm ↦ (h₂ k hm).le
  have hget := getElem?_front (show (front n.key (keyCount n).toNat)[ks₁.length]? = some key by
    rw [show front n.key (keyCount n).toNat = ks₁ ++ key :: ks₂ from hk]
    simp)
  rw [search_eq, search_loop_node hn hk h₁ hge, if_neg]
  rintro (h | h)
  · omega
  · exact h hget.2

/-- The key is one of the keys, or not: in both cases the search tells how many are not
above it. -/
theorem search_le (hn : 0 ≤ keyCount n) (hk : (block n).keys = ks₁ ++ ks₂)
    (hs : (ks₁ ++ ks₂).Pairwise (· < ·)) (h₁ : ∀ k ∈ ks₁, k ≤ key) (h₂ : ∀ k ∈ ks₂, key < k) :
    (keyBinarySearch n key = ks₁.length - 1 ∧ 0 < ks₁.length) ∨
      keyBinarySearch n key = -ks₁.length - 1 := by
  rcases List.eq_nil_or_concat' ks₁ with rfl | ⟨ks, k, rfl⟩
  · exact Or.inr (search_absent hn hk (fun _ h ↦ nomatch h) h₂)
  · have hlast := h₁ k (by simp)
    have hks : ∀ k' ∈ ks, k' < k := fun k' hm ↦
      (List.pairwise_append.mp (List.pairwise_append.mp hs).1).2.2 k' hm k (by simp)
    by_cases he : k = key
    · subst he
      rw [List.append_assoc] at hk
      refine Or.inl ⟨?_, by simp⟩
      rw [search_found hn hk hks h₂]
      simp
    · refine Or.inr (search_absent hn hk (fun k' hm ↦ ?_) h₂)
      rcases List.mem_append.mp hm with hm | hm
      · exact (hks k' hm).trans_le hlast
      · rw [List.mem_singleton.mp hm]
        omega

theorem parentKeyIndex_eq (hn : 0 ≤ keyCount n) (hk : (block n).keys = ks₁ ++ ks₂)
    (hs : (ks₁ ++ ks₂).Pairwise (· < ·)) (h₁ : ∀ k ∈ ks₁, k ≤ key) (h₂ : ∀ k ∈ ks₂, key < k) :
    parentKeyIndex n key = ks₁.length - 1 := by
  unfold parentKeyIndex
  rcases search_le hn hk hs h₁ h₂ with ⟨h, hpos⟩ | h
  · rw [h]
    dsimp only
    rw [if_pos (by omega)]
  · rw [h]
    dsimp only
    rw [if_neg (by omega)]
    omega

end MqssdModel.BPlusTree.Search
