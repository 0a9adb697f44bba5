import MqssdModel.BPlusTree.History

namespace MqssdModel.BPlusTree.FileGrowth

open Data.Assoc Data.Rows Data.TotalRun Machine Caching Views Shape Allocation Ordering
  LeafLevel Boot Put History

/-- The keys are put into the index, one after another. -/
def fills (ks : List ℤ) : List (ℤ × ℤ) := ks.map fun k ↦ (k, 1)

/-- The keys are taken out of it again. -/
def drains (ks : List ℤ) : List (ℤ × ℤ) := ks.map fun k ↦ (k, 0)

variable {cf : Config} {t t₁ t₂ : Tree} {st : Store} {w u : Row} {used ks xs ys : List ℤ}
  {m ops ops' : List (ℤ × ℤ)} {d : ℤ} {fuel : ℕ}

section Counting

/-- The blocks in use find place in the file. -/
theorem Alloc.length_le (hcf : Sized cf) (h : Alloc cf st used) :
    used.length * cf.blockSize ≤ st.fileSize := by
  have hpos := hcf.pos
  obtain ⟨n, hn⟩ : ∃ n : ℕ, st.fileSize = n * cf.blockSize := by
    obtain ⟨q, hq⟩ := h.dvd
    have hq₀ : 0 ≤ q := by
      have hnonneg := h.nonneg
      rw [hq] at hnonneg
      exact nonneg_of_mul_nonneg_right hnonneg hpos
    exact ⟨q.toNat, by rw [Int.toNat_of_nonneg hq₀, hq, Int.mul_comm]⟩
  have hsub : used ⊆ (List.range n).map fun i : ℕ ↦ i * cf.blockSize := by
    intro o ho
    obtain ⟨h₀, hlt, q, rfl⟩ := (h.mem o).mp (List.mem_append_left _ ho)
    have hq₀ : 0 ≤ q := nonneg_of_mul_nonneg_right h₀ hpos
    rw [hn, Int.mul_comm] at hlt
    have hqn : q < n := lt_of_mul_lt_mul_right hlt hpos.le
    exact List.mem_map.mpr ⟨q.toNat, List.mem_range.mpr (by omega),
      by rw [Int.toNat_of_nonneg hq₀, Int.mul_comm]⟩
  have hlen := (List.subperm_of_subset h.nodup.of_append_left hsub).length_le
  rw [List.length_map, List.length_range] at hlen
  rw [hn]
  exact mul_le_mul_of_nonneg_right (by exact_mod_cast hlen) hpos.le

theorem length_entries_le (h : ∀ o ∈ nodes w, ∃ c, content st o = some c ∧ LeafOk cf u c) :
    ((entries st w).length : ℤ) ≤ cf.maxEntries * (nodes w).length := by
  induction w with
  | nil => simp [entries]
  | cons x w ih =>
    cases x with
    | node o =>
      obtain ⟨c, hc, hok⟩ := h o List.mem_cons_self
      have hcap := hok.cap
      have hrest := ih fun o ho ↦ h o (List.mem_cons_of_mem _ ho)
      rw [entries_cons_node, pairsAt_eq hc, List.length_append, List.length_zip, hok.keys,
        nodes_cons_node, List.length_cons]
      push_cast
      rw [mul_add, mul_one, min_self]
      omega
    | sep k => exact ih h

/-- So many entries need a file of so many bytes. -/
theorem length_le_fileSize (hcf : Sized cf) (h : Stands cf t m d) :
    m.length * cf.blockSize ≤ cf.maxEntries * t.fileSize := by
  have hpos := hcf.pos
  have hentries := hcf.entries
  obtain ⟨st, hrep, ⟨rfl, -, -, halloc, -⟩ | ⟨w, us, hg, rfl⟩⟩ := h
  · have hnonneg := halloc.nonneg
    rw [hrep.fileSize]
    simp only [List.length_nil, Nat.cast_zero, zero_mul]
    exact mul_nonneg (by omega) hnonneg
  · have hsize := Alloc.length_le hcf hg.alloc
    have hlen := length_entries_le hg.leaves.leaf
    rw [hrep.fileSize]
    have hnodes : ((nodes w).length : ℤ) ≤ (nodes w ++ offsets us).length := by
      rw [List.length_append]
      omega
    calc ((entries st w).length : ℤ) * cf.blockSize
        ≤ cf.maxEntries * (nodes w).length * cf.blockSize := mul_le_mul_of_nonneg_right hlen hpos.le
      _ ≤ cf.maxEntries * ((nodes w ++ offsets us).length * cf.blockSize) := by
        rw [mul_assoc]
        exact mul_le_mul_of_nonneg_left (mul_le_mul_of_nonneg_right hnodes hpos.le) (by omega)
      _ ≤ cf.maxEntries * st.fileSize := mul_le_mul_of_nonneg_left hsize (by omega)

theorem Longer.ge {k : ℕ} {size size' : ℤ} (hcf : Sized cf) (h : Longer cf k size size') :
    size ≤ size' := by
  obtain ⟨j, -, rfl⟩ := h
  exact Int.le_add_of_nonneg_right (mul_nonneg (by omega) hcf.pos.le)

theorem Longer.le {k : ℕ} {size size' : ℤ} (hcf : Sized cf) (h : Longer cf k size size') :
    size' ≤ size + k * cf.blockSize := by
  obtain ⟨j, hj, rfl⟩ := h
  exact Int.add_le_add_left (mul_le_mul_of_nonneg_right (by exact_mod_cast hj) hcf.pos.le) _

end Counting

section Tables

theorem put_fill (f : Table) (k' k : ℤ) : (f.put k' 1).2 k =
    if k = k' ∧ f k = none then some 1 else f k := by
  rw [Table.put, if_pos one_ne_zero]
  by_cases hk : k = k'
  · subst hk
    by_cases hf : f k = none
    · simp [hf]
    · simp [hf]
  · by_cases hf : f k' = none
    · simp [hf, hk]
    · simp [hf, hk]

theorem put_drain (f : Table) (k' k : ℤ) : (f.put k' 0).2 k = if k = k' then none else f k := by
  rw [Table.put, if_neg (not_not.mpr rfl)]
  by_cases hk : k = k'
  · subst hk
    by_cases hf : f k = none
    · simp [hf]
    · simp [hf]
  · by_cases hf : f k' = none
    · simp [hf, hk]
    · simp [hf, hk]

theorem puts_fills (f : Table) (k : ℤ) : (Table.puts f (fills ks)).2 k =
    if k ∈ ks ∧ f k = none then some 1 else f k := by
  induction ks generalizing f with
  | nil => simp [fills, Table.puts]
  | cons k' ks ih =>
    change (Table.puts (f.put k' 1).2 (fills ks)).2 k = _
    rw [ih, put_fill]
    by_cases hk : k = k'
    · by_cases hf : f k = none
      · simp [hk, hk ▸ hf]
      · simp [hf]
    · simp [hk]

theorem puts_drains (f : Table) (k : ℤ) : (Table.puts f (drains ks)).2 k =
    if k ∈ ks then none else f k := by
  induction ks generalizing f with
  | nil => simp [drains, Table.puts]
  | cons k' ks ih =>
    change (Table.puts (f.put k' 0).2 (drains ks)).2 k = _
    rw [ih, put_drain]
    by_cases hk : k = k'
    · simp [hk]
    · simp [hk]

theorem puts_append (h : puts cf fuel ops t = .ok (xs, t₁))
    (h' : puts cf fuel ops' t₁ = .ok (ys, t₂)) :
    puts cf fuel (ops ++ ops') t = .ok (xs ++ ys, t₂) := by
  induction ops generalizing t xs with
  | nil =>
    cases h
    exact h'
  | cons op ops ih =>
    obtain ⟨x, s, hput, h⟩ := bind_eq_ok.mp h
    obtain ⟨xs', s', hrest, h⟩ := bind_eq_ok.mp h
    cases h
    exact bind_eq_ok.mpr ⟨x, s, hput, bind_eq_ok.mpr ⟨xs' ++ ys, t₂, ih hrest, rfl⟩⟩

end Tables

section Runs

theorem fresh_fileSize (h : Fresh cf t) : t.fileSize = 0 := by
  obtain ⟨filename, blockSize, heap, cf₀, -, h⟩ := h
  unfold bplusTreeInit at h
  split_ifs at h
  all_goals cases h
  rfl

/-- What `fills` makes of a new index. -/
structure Filled (cf : Config) (ks : List ℤ) (t : Tree) (m : List (ℤ × ℤ)) (d : ℤ) : Prop where
  stands : Stands cf t m d
  length : m.length = ks.length
  keys : ∀ k, k ∈ m.map Prod.fst → k ∈ ks
  size : t.fileSize ≤ (ks.length * ks.length : ℕ) * cf.blockSize

theorem fills_run (h : Fresh cf t) (hks : ks.Nodup) (hfuel : ks.length ≤ fuel) :
    Runs (puts cf fuel (fills ks)) t fun _ t₁ ↦ ∃ m d, Filled cf ks t₁ m d := by
  have hcf := h.sized
  have hlen : (fills ks).length = ks.length := List.length_map _
  have hbound : ([] : List (ℤ × ℤ)).length + (fills ks).length ≤ fuel := by
    rw [hlen, List.length_nil, Nat.zero_add]
    exact hfuel
  refine (puts_follow hcf h.stands hbound).mono ?_
  rintro xs t₁ ⟨m, d, hf, htable⟩
  have hvalue (k : ℤ) : table m k = if k ∈ ks then some 1 else none := by
    have hsnd : table m = (Table.puts (fun _ ↦ none) (fills ks)).2 := congrArg Prod.snd htable
    rw [hsnd, puts_fills]
    simp
  have hkeys (k : ℤ) : k ∈ m.map Prod.fst ↔ k ∈ ks := by
    rw [← not_iff_not, ← table_eq_none, hvalue]
    simp
  have hnodup : (m.map Prod.fst).Nodup := by
    obtain ⟨st, -, hholds⟩ := hf.stands
    exact Holds.nodup hholds
  have hperm : (m.map Prod.fst).Perm ks := (List.perm_ext_iff_of_nodup hnodup hks).mpr hkeys
  have hsize := Longer.le hcf hf.size
  rw [fresh_fileSize h, Int.zero_add, hlen, List.length_nil, Nat.zero_add] at hsize
  exact ⟨m, d, hf.stands, by rw [← hperm.length_eq, List.length_map], fun k ↦ (hkeys k).mp, hsize⟩

/-- An index that has been filled and emptied again is a file of free blocks. -/
theorem drained (h : Fresh cf t) (hks : ks.Nodup) (hfuel : 2 * ks.length ≤ fuel) :
    ∃ xs t', puts cf fuel (fills ks ++ drains ks) t = .ok (xs, t') ∧
      (∀ o, o ∈ t'.freeBlocks ↔ 0 ≤ o ∧ o < t'.fileSize ∧ cf.blockSize ∣ o) ∧
      ks.length * cf.blockSize ≤ cf.maxEntries * t'.fileSize ∧
      t'.fileSize ≤ (3 * (ks.length * ks.length) : ℕ) * cf.blockSize := by
  have hcf := h.sized
  have hentries := hcf.entries
  have hlen : (drains ks).length = ks.length := List.length_map _
  obtain ⟨xs, t₁, hrun₁, m₁, d₁, hfill⟩ := fills_run h hks (show ks.length ≤ fuel by omega)
  have hbound : m₁.length + (drains ks).length ≤ fuel := by
    rw [hlen, hfill.length]
    omega
  obtain ⟨ys, t₂, hrun₂, m₂, d₂, hf, htable⟩ := puts_follow hcf hfill.stands hbound
  refine ⟨xs ++ ys, t₂, puts_append hrun₁ hrun₂, ?_, ?_, ?_⟩
  · have hnone (k : ℤ) : table m₂ k = none := by
      have hsnd : table m₂ = (Table.puts (table m₁) (drains ks)).2 := congrArg Prod.snd htable
      rw [hsnd, puts_drains]
      by_cases hk : k ∈ ks
      · rw [if_pos hk]
      · rw [if_neg hk]
        exact table_eq_none.mpr fun hm ↦ hk (hfill.keys k hm)
    obtain ⟨st, hrep, ⟨-, -, -, halloc, -⟩ | ⟨w, us, hg, rfl⟩⟩ := hf.stands
    · intro o
      rw [hrep.free, hrep.fileSize]
      exact halloc.mem o
    · -- a tree has an entry
      have hpos := length_levels hg
      obtain ⟨e, he⟩ := List.exists_mem_of_length_pos (Nat.zero_lt_of_lt hpos)
      exact absurd (List.mem_map_of_mem he) (table_eq_none.mp (hnone e.1))
  · have hfull := length_le_fileSize hcf hfill.stands
    rw [hfill.length] at hfull
    exact hfull.trans (mul_le_mul_of_nonneg_left (Longer.ge hcf hf.size) (by omega))
  · have hsize := Longer.le hcf hf.size
    have hfirst := hfill.size
    rw [hlen, hfill.length] at hsize
    calc t₂.fileSize
        ≤ (ks.length * ks.length : ℕ) * cf.blockSize +
            (ks.length * (ks.length + ks.length) : ℕ) * cf.blockSize := by omega
      _ = (3 * (ks.length * ks.length) : ℕ) * cf.blockSize := by
        push_cast
        ring

end Runs

end MqssdModel.BPlusTree.FileGrowth
