import MqssdModel.BPlusTree.Views

namespace MqssdModel.BPlusTree.Allocation

open Machine Caching Views

/-- What the geometry of the blocks is used for. -/
structure Sized (cf : Config) : Prop where
  order : 4 ≤ cf.maxOrder
  entries : 3 ≤ cf.maxEntries
  pos : 0 < cf.blockSize
  even : 2 ∣ cf.blockSize

/-- The blocks of the file are in use or free, and none is both. -/
structure Alloc (cf : Config) (st : Store) (used : List ℤ) : Prop where
  nodup : (used ++ st.free).Nodup
  mem : ∀ o, o ∈ used ++ st.free ↔ 0 ≤ o ∧ o < st.fileSize ∧ cf.blockSize ∣ o
  dvd : cf.blockSize ∣ st.fileSize
  nonneg : 0 ≤ st.fileSize

/-- A file of `size` bytes has got at most `k` blocks longer. -/
def Longer (cf : Config) (k : ℕ) (size size' : ℤ) : Prop :=
  ∃ j ≤ k, size' = size + j * cf.blockSize

variable {cf : Config} {st st' : Store} {used used' : List ℤ} {o : ℤ}

section Growth

variable {k k' : ℕ} {size size' size'' : ℤ}

theorem longer_of_eq (k : ℕ) (h : size' = size) : Longer cf k size size' :=
  ⟨0, Nat.zero_le k, by simp [h]⟩

theorem Longer.trans (h : Longer cf k size size') (h' : Longer cf k' size' size'') :
    Longer cf (k + k') size size'' := by
  obtain ⟨j, hj, rfl⟩ := h
  obtain ⟨j', hj', rfl⟩ := h'
  refine ⟨j + j', Nat.add_le_add hj hj', ?_⟩
  rw [Nat.cast_add, Int.add_mul, Int.add_assoc]

theorem Longer.mono (h : Longer cf k size size') (hk : k ≤ k') : Longer cf k' size size' := by
  obtain ⟨j, hj, he⟩ := h
  exact ⟨j, hj.trans hk, he⟩

theorem longer_alloc : Longer cf 1 st.fileSize (st.alloc cf).fileSize := by
  unfold Store.alloc
  split
  · exact ⟨1, le_rfl, by simp⟩
  · exact longer_of_eq 1 rfl

end Growth

theorem Alloc.perm (h : Alloc cf st used) (hp : used.Perm used') : Alloc cf st used' where
  nodup := ((hp.append_right st.free).nodup_iff).mp h.nodup
  mem o := ((hp.append_right st.free).mem_iff).symm.trans (h.mem o)
  dvd := h.dvd
  nonneg := h.nonneg

theorem Alloc.congr (h : Alloc cf st used) (hfree : st'.free = st.free)
    (hsize : st'.fileSize = st.fileSize) : Alloc cf st' used :=
  ⟨hfree ▸ h.nodup, hfree ▸ hsize ▸ h.mem, hsize ▸ h.dvd, hsize ▸ h.nonneg⟩

theorem Alloc.of_header (h : Alloc cf st used) (hh : header st' = header st) :
    Alloc cf st' used :=
  h.congr (congrArg Header.free hh) (congrArg Header.fileSize hh)

theorem Alloc.ne_invalid (hcf : Sized cf) (h : Alloc cf st used) (ho : o ∈ used) :
    o ≠ invalidOffset := by
  have hdvd := ((h.mem o).mp (List.mem_append_left _ ho)).2.2
  have heven : 2 ∣ o := hcf.even.trans hdvd
  rintro rfl
  revert heven
  decide

theorem Alloc.fresh_notMem (h : Alloc cf st used) : st.fresh ∉ used := by
  unfold Store.fresh
  cases hf : st.free with
  | nil =>
    intro hmem
    have hlt := ((h.mem st.fileSize).mp (List.mem_append_left _ hmem)).2.1
    omega
  | cons a rest =>
    have hn := h.nodup
    rw [hf] at hn
    exact fun hmem ↦ List.disjoint_of_nodup_append hn hmem List.mem_cons_self

theorem Alloc.alloc (hcf : Sized cf) (h : Alloc cf st used) :
    Alloc cf (st.alloc cf) (st.fresh :: used) := by
  unfold Store.fresh Store.alloc
  cases hf : st.free with
  | nil =>
    have hn := h.nodup
    have hm := h.mem
    simp only [hf, List.append_nil] at hn hm
    have hpos := hcf.pos
    have hnonneg := h.nonneg
    refine ⟨?_, fun o ↦ ?_, Int.dvd_add h.dvd (Int.dvd_refl _), by dsimp only; omega⟩
    · simp only [List.headD_nil, List.append_nil, List.nodup_cons]
      exact ⟨fun hmem ↦ by have := (hm _).mp hmem; omega, hn⟩
    · simp only [List.headD_nil, List.append_nil, List.mem_cons, hm]
      constructor
      · rintro (rfl | ⟨h₀, h₁, h₂⟩)
        · exact ⟨hnonneg, by omega, h.dvd⟩
        · exact ⟨h₀, by omega, h₂⟩
      · rintro ⟨h₀, h₁, h₂⟩
        by_cases hlt : o < st.fileSize
        · exact Or.inr ⟨h₀, hlt, h₂⟩
        · have hz := Int.eq_zero_of_dvd_of_nonneg_of_lt (show 0 ≤ o - st.fileSize by omega)
            (show o - st.fileSize < cf.blockSize by omega) (Int.dvd_sub h₂ h.dvd)
          exact Or.inl (by omega)
  | cons a rest =>
    have hn := h.nodup
    have hm := h.mem
    rw [hf] at hn hm
    refine ⟨?_, fun o ↦ ?_, h.dvd, h.nonneg⟩
    · exact (List.perm_middle.nodup_iff).mp hn
    · rw [← hm o]
      exact (List.perm_middle.mem_iff).symm

theorem Alloc.release (h : Alloc cf st (o :: used)) : Alloc cf (st.release o) used := by
  have hp : (o :: used ++ st.free).Perm (used ++ (st.free ++ [o])) := by
    rw [← List.append_assoc]
    exact (List.perm_append_singleton o _).symm
  exact ⟨hp.nodup_iff.mp h.nodup, fun v ↦ hp.mem_iff.symm.trans (h.mem v), h.dvd, h.nonneg⟩


end MqssdModel.BPlusTree.Allocation
