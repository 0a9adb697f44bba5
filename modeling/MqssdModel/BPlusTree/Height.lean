import Mathlib.Algebra.Group.Action.Defs
import Mathlib.Algebra.Order.BigOperators.Group.List
import Mathlib.Data.Int.Interval
import MqssdModel.BPlusTree.FileGrowth
import MqssdModel.BPlusTree.Preorder

namespace MqssdModel.BPlusTree.Height

open Data.Arrays Data.Assoc Data.Rows Data.TotalRun Machine Caching Views Shape Allocation Ordering
  Pending Steps Descent LeafLevel Boot Put History Reading RangeRun Dump Preorder FileGrowth

/-- The children of a non-leaf that is not the root, at least. -/
def minOrder (cf : Config) : ℕ := (cf.maxOrder / 2).toNat

/-- The entries of a leaf that is not the root, at least. -/
def minEntries (cf : Config) : ℕ := ((cf.maxEntries + 1) / 2).toNat

variable {cf : Config} {t₀ t : Tree} {st : Store} {w u : Row} {us : List Row} {o d level : ℤ}
  {c : Ptr} {n : Node} {h room fuel : ℕ} {stack : List NodeBacklog} {m ops : List (ℤ × ℤ)}

section Counting

theorem length_flatMap_ge {α β : Type} {f : α → List β} {l : List α} {a : ℕ}
    (hf : ∀ x ∈ l, a ≤ (f x).length) : l.length * a ≤ (l.flatMap f).length := by
  have hsum := List.card_nsmul_le_sum (l.map fun x ↦ (f x).length) a fun y hy ↦ by
    obtain ⟨x, hx, rfl⟩ := List.mem_map.mp hy
    exact hf x hx
  rwa [List.length_map, smul_eq_mul, ← List.length_flatMap] at hsum

theorem length_flatMap_le {α β : Type} {f : α → List β} {l : List α} {a : ℕ}
    (hf : ∀ x ∈ l, (f x).length ≤ a) : (l.flatMap f).length ≤ l.length * a := by
  have hsum := List.sum_le_card_nsmul (l.map fun x ↦ (f x).length) a fun y hy ↦ by
    obtain ⟨x, hx, rfl⟩ := List.mem_map.mp hy
    exact hf x hx
  rwa [List.length_map, smul_eq_mul, ← List.length_flatMap] at hsum

theorem length_expand_ge (hin : ∀ o ∈ nodes u, InnerAt cf st u o) (hu : 1 < u.length) :
    (nodes u).length * minOrder cf ≤ (nodes (expand (row st) u)).length := by
  rw [nodes_expand]
  refine length_flatMap_ge fun o ho ↦ ?_
  obtain ⟨c, hc, hok, -⟩ := hin o ho
  have hhalf := hok.half hu
  rw [hok.nodes_row hc, minOrder]
  omega

theorem length_expand_le (hin : ∀ o ∈ nodes u, InnerAt cf st u o) :
    (nodes (expand (row st) u)).length ≤ (nodes u).length * cf.maxOrder.toNat := by
  rw [nodes_expand]
  refine length_flatMap_le fun o ho ↦ ?_
  obtain ⟨c, hc, hok, -⟩ := hin o ho
  have hcap := hok.cap
  rw [hok.nodes_row hc]
  omega

/-- The root has two children, and every other non-leaf half of what it can have. -/
theorem length_upper_ge (hcf : Sized cf) (hup : Upper cf st w (u :: us)) :
    2 * minOrder cf ^ us.length ≤ (nodes w).length := by
  induction us generalizing w u with
  | nil =>
    obtain ⟨rfl, hin, -, rfl, -⟩ := hup
    have htwo := length_expand hin
    simpa using htwo
  | cons u' us ih =>
    obtain ⟨rfl, hin, -, hup⟩ := hup
    have hrow := ih hup
    have hpos : 0 < minOrder cf ^ us.length := by
      have horder := hcf.order
      exact Nat.pow_pos (by rw [minOrder]; omega)
    have hlen : (nodes u).length ≤ u.length := List.length_filterMap_le _ _
    calc 2 * minOrder cf ^ (us.length + 1)
        = 2 * minOrder cf ^ us.length * minOrder cf := by rw [pow_succ, mul_assoc]
      _ ≤ (nodes u).length * minOrder cf := Nat.mul_le_mul_right _ hrow
      _ ≤ _ := length_expand_ge hin (by omega)

theorem length_upper_le (hup : Upper cf st w us) :
    (nodes w).length ≤ cf.maxOrder.toNat ^ us.length := by
  induction us generalizing w with
  | nil =>
    obtain ⟨rfl, -⟩ := hup
    exact le_rfl
  | cons u us ih =>
    obtain ⟨rfl, hin, -, hup⟩ := hup
    calc (nodes (expand (row st) u)).length
        ≤ (nodes u).length * cf.maxOrder.toNat := length_expand_le hin
      _ ≤ cf.maxOrder.toNat ^ us.length * cf.maxOrder.toNat := Nat.mul_le_mul_right _ (ih hup)
      _ = cf.maxOrder.toNat ^ (us.length + 1) := (pow_succ _ _).symm

theorem length_entries_ge (hl : Leaves cf st w) (hw : 1 < w.length) :
    (nodes w).length * minEntries cf ≤ (entries st w).length := by
  rw [entries]
  refine length_flatMap_ge fun o ho ↦ ?_
  obtain ⟨c, hc, hok⟩ := hl.leaf o ho
  have hhalf := hok.half hw
  rw [pairsAt_eq hc, List.length_zip, hok.keys, min_self, minEntries]
  omega

end Counting

section Bounds

theorem HasHeight.unique {h' : ℕ} (hh : HasHeight t h) (hh' : HasHeight t h') : h = h' :=
  Nat.le_antisymm ((hh h').mp ((hh' h').mpr le_rfl)) ((hh' h).mp ((hh h).mpr le_rfl))

/-- How many entries a tree of `h` levels holds. -/
structure Between (cf : Config) (h : ℕ) (m : List (ℤ × ℤ)) : Prop where
  least : ∀ i, h = i + 2 → 2 * minOrder cf ^ i * minEntries cf ≤ m.length
  most : m.length ≤ cf.maxEntries.toNat * cf.maxOrder.toNat ^ (h - 1)

theorem between_of_good (hcf : Sized cf) (hg : Good cf st w us d) :
    Between cf (us.length + 1) (entries st w) := by
  have hentries := hcf.entries
  refine ⟨fun i hi ↦ ?_, ?_⟩
  · cases us with
    | nil => simp at hi
    | cons u us =>
      obtain rfl : i = us.length := by simpa using hi.symm
      have hnodes := length_upper_ge hcf hg.upper
      have hpos : 0 < minOrder cf ^ us.length := by
        have horder := hcf.order
        exact Nat.pow_pos (by rw [minOrder]; omega)
      have hlen : (nodes w).length ≤ w.length := List.length_filterMap_le _ _
      exact (Nat.mul_le_mul_right _ hnodes).trans (length_entries_ge hg.leaves (by omega))
  · have hfull := length_entries_le hg.leaves.leaf
    have hnodes := length_upper_le hg.upper
    have hnat : (entries st w).length ≤ cf.maxEntries.toNat * (nodes w).length := by
      have hcast : ((cf.maxEntries.toNat * (nodes w).length : ℕ) : ℤ) =
          cf.maxEntries * (nodes w).length := by
        rw [Nat.cast_mul, Int.toNat_of_nonneg (by omega)]
      omega
    exact hnat.trans (Nat.mul_le_mul_left _ hnodes)

theorem exists_height (hcf : Sized cf) (hs : Stands cf t m d) :
    ∃ h, HasHeight t h ∧ Between cf h m := by
  obtain ⟨st, hrep, ⟨rfl, hroot, -⟩ | ⟨w, us, hg, rfl⟩⟩ := hs
  · have hempty := layer_empty (hrep.root.trans hroot)
    refine ⟨0, fun i ↦ ⟨fun _ ↦ Nat.zero_le i, fun _ ↦ hempty i⟩, fun i hi ↦ ?_, Nat.zero_le _⟩
    exact absurd hi (by omega)
  · exact ⟨us.length + 1, hasHeight_of_good hcf hrep hg, between_of_good hcf hg⟩

end Bounds

section Overflow

theorem node_run (hseen : Seen t₀ t st c n) : Runs (node c) t fun a t' ↦ a = n ∧ t' = t := by
  have hrun : Runs (node c >>= pure) t fun a t' ↦ a = n ∧ t' = t :=
    hseen.node_bind (runs_pure ⟨rfl, rfl⟩)
  rwa [bind_pure] at hrun

theorem dumpLoop_full {nbl : Option NodeBacklog} (hseen : Seen t₀ t st c n)
    (hfull : stack.length ≥ room) (hfuel : 0 < fuel) :
    dumpLoop cf room fuel (some c) nbl stack level t = .error .outOfBounds := by
  obtain ⟨fuel, rfl⟩ : ∃ f, fuel = f + 1 := ⟨fuel - 1, by omega⟩
  unfold dumpLoop
  refine (node_run hseen).seq_error ?_
  rintro _ _ ⟨rfl, rfl⟩
  dsimp only
  rw [if_pos hfull]
  rfl

/-- The way down to the first child of a non-leaf. -/
theorem down_run {co : Content} (hc : content st o = some co) (hok : InnerOk cf w co)
    (hseen : Seen t₀ t st c n) (hd : st.disk o = some (block n)) {v : ℤ} (hv : co.vals[0]? = some v)
    (hs : Subtree cf st h v) : Runs (down cf n c 0) t fun p t' ↦
      ∃ c' n', p = some c' ∧ st.disk v = some (block n') ∧ Seen t₀ t' st c' n' := by
  obtain rfl : Block.content (block n) = co := by
    rw [content, hd] at hc
    exact Option.some.inj hc
  change (block n).vals[0]? = some v at hv
  have hin := inner_of_ok hok
  have hcap : ((block n).vals.length : ℤ) ≤ cf.maxOrder := hok.cap
  have hlt : 0 < (block n).vals.length := (List.getElem?_eq_some_iff.mp hv).1
  have hsub : n.sub 0 = v := by
    rw [hin.block_eq] at hv
    exact (getElem?_front hv).2
  have hinner : ¬isLeaf n = true := by simp [isLeaf, hin.type]
  have hbounds : (0 : ℤ) ≤ 0 ∧ (0 : ℤ) < subField.cap cf n := by
    change (0 : ℤ) ≤ 0 ∧ (0 : ℤ) < cf.maxOrder
    omega
  have hload : Runs (load cf subField c 0) t fun x t' ↦ x = v ∧ t' = t :=
    hseen.load_run hbounds ⟨hsub, rfl⟩
  obtain ⟨b, hb⟩ := hs.disk
  rw [down, if_neg hinner]
  refine hload.seq ?_
  rintro _ _ ⟨rfl, rfl⟩
  refine (seek_run hseen.still hseen.rep hs.ne_invalid hb).mono ?_
  rintro _ t' ⟨c', n', rfl, -, rfl, hseen'⟩
  exact ⟨c', n', rfl, hb, hseen'⟩

/-- The way down to the first leaf already takes as many entries of the stack as there are
levels. -/
theorem dumpLoop_overflows (hs : Subtree cf st h o) (hroom : room ≤ stack.length + h)
    (hseen : Seen t₀ t st c n) (hd : st.disk o = some (block n)) (hfuel : h < fuel) :
    dumpLoop cf room fuel (some c) none stack level t = .error .outOfBounds := by
  induction h generalizing o stack t c n level fuel with
  | zero => exact dumpLoop_full hseen (by omega) hfuel
  | succ h ih =>
    by_cases hfull : stack.length ≥ room
    · exact dumpLoop_full hseen hfull (by omega)
    · obtain ⟨-, w, co, hc, hok, hsub⟩ := hs
      have htwo := hok.two
      have hlt : 0 < co.vals.length := by omega
      obtain ⟨fuel, rfl⟩ : ∃ f, fuel = f + 1 := ⟨fuel - 1, by omega⟩
      have hchild := hsub _ (List.getElem_mem hlt)
      unfold dumpLoop
      refine (node_run hseen).seq_error ?_
      rintro _ _ ⟨rfl, rfl⟩
      dsimp only [Option.map_none, Option.getD_none]
      rw [if_neg hfull]
      refine (down_run hc hok hseen hd (List.getElem?_eq_getElem hlt) hchild).seq_error ?_
      rintro _ t' ⟨c', n', rfl, hd', hseen'⟩
      refine bind_error (ih hchild ?_ hseen' hd' (by omega))
      rw [List.length_cons]
      omega

theorem dumpWith_overflows (hcf : Sized cf) (hrep : Rep t st []) (hg : Good cf st w us d)
    (hroom : room ≤ us.length) (hfuel : us.length < fuel) :
    dumpWith cf room fuel t = .error .outOfBounds := by
  have hsub := subtree_of_good hcf hg
  obtain ⟨b, hb⟩ := hsub.disk
  have hstart : (do
      let start ← nodeSeek t.root
      dumpLoop cf room fuel start none [] 0) t = .error .outOfBounds := by
    rw [hrep.root]
    refine (seek_run still_refl hrep hsub.ne_invalid hb).seq_error ?_
    rintro _ t' ⟨c, n, rfl, -, rfl, hseen⟩
    exact dumpLoop_overflows hsub (by simpa using hroom) hseen hb hfuel
  exact hstart

end Overflow

section Dumps

/-- How a dump ends is decided by the height. -/
theorem dump_of_stands (hcf : Sized cf) (hs : Stands cf t m d) :
    ∃ height, HasHeight t height ∧ Between cf height m ∧
      (height ≤ maxLevel → ∃ N, ∀ rounds, N ≤ rounds → ∃ ds t₁,
        bplusTreeDump cf rounds t = .ok (ds, t₁) ∧ Still t t₁ ∧ Dumped t height ds) ∧
      (maxLevel < height → ∀ rounds, height ≤ rounds →
        bplusTreeDump cf rounds t = .error .outOfBounds) := by
  obtain ⟨height, hheight, hbetween⟩ := exists_height hcf hs
  refine ⟨height, hheight, hbetween, ?_⟩
  obtain ⟨st, hrep, ⟨-, hroot, -⟩ | ⟨w, us, hg, -⟩⟩ := hs
  · have hempty := layer_empty (hrep.root.trans hroot)
    obtain rfl : height = 0 :=
      HasHeight.unique hheight fun i ↦ ⟨fun _ ↦ Nat.zero_le i, fun _ ↦ hempty i⟩
    refine ⟨fun hle ↦ ?_, fun hlt ↦ absurd hlt (Nat.not_lt_zero _)⟩
    have hdump : ∃ N, ∀ fuel, N ≤ fuel → Runs (dumpWith cf 0 fuel) t fun ds t' ↦
        Still t t' ∧ Dumped t 0 ds := dumpWith_empty (hrep.root.trans hroot)
    obtain ⟨N, hN⟩ := hdump
    refine ⟨N, fun rounds hrounds ↦ ?_⟩
    obtain ⟨ds, t₁, hrun, hdumped⟩ := hN rounds hrounds
    exact ⟨ds, t₁, dumpWith_refines hle rounds t _ hrun, hdumped⟩
  · obtain rfl := HasHeight.unique hheight (hasHeight_of_good hcf hrep hg)
    refine ⟨fun hle ↦ ?_, fun hlt rounds hrounds ↦ ?_⟩
    · obtain ⟨N, hN⟩ := dumpWith_run hcf hrep hg
      refine ⟨N, fun rounds hrounds ↦ ?_⟩
      obtain ⟨ds, t₁, hrun, hdumped⟩ := hN rounds hrounds
      exact ⟨ds, t₁, dumpWith_refines hle rounds t _ hrun, hdumped⟩
    · exact dumpWith_overflows hcf hrep hg (by omega) (by omega)

/-- A key in the map is one that has been put there. -/
theorem key_of_puts {f : Table} {k : ℤ} (hk : (Table.puts f ops).2 k ≠ none) :
    f k ≠ none ∨ k ∈ ops.map Prod.fst := by
  induction ops generalizing f with
  | nil => exact Or.inl hk
  | cons op ops ih =>
    obtain ⟨k', v⟩ := op
    rcases ih hk with h₁ | h₁
    · by_cases hkk : k = k'
      · exact Or.inr (by simp [hkk])
      · left
        unfold Table.put at h₁
        split_ifs at h₁
        all_goals dsimp only at h₁
        · rwa [Function.update_of_ne hkk] at h₁
        · exact h₁
        · exact h₁
        · rwa [Function.update_of_ne hkk] at h₁
    · exact Or.inr (List.mem_cons_of_mem _ h₁)

/-- There are no more entries than values of `key_t`. -/
theorem length_le_of_keys (hs : Stands cf t m d)
    (hkeys : ∀ k ∈ m.map Prod.fst, -2 ^ 31 ≤ k ∧ k < 2 ^ 31) : m.length ≤ 2 ^ 32 := by
  obtain ⟨st, -, hholds⟩ := hs
  have hsub : (m.map Prod.fst).toFinset ⊆ Finset.Ico (-2 ^ 31) (2 ^ 31) := by
    intro k hk
    exact Finset.mem_Ico.mpr (hkeys k (List.mem_toFinset.mp hk))
  have hcard := Finset.card_le_card hsub
  rw [List.toFinset_card_of_nodup (Holds.nodup hholds), List.length_map, Int.card_Ico] at hcard
  exact hcard.trans (by norm_num)

/-- Nine children or entries in every node but the root are enough. -/
theorem height_le_of_between (hb : Between cf h m) (horder : 18 ≤ cf.maxOrder)
    (hentries : 17 ≤ cf.maxEntries) (hm : m.length ≤ 2 ^ 32) : h ≤ maxLevel := by
  by_contra hlt
  have hmax : maxLevel = 10 := rfl
  obtain ⟨i, hi⟩ : ∃ i, h = (i + 9) + 2 := ⟨h - 11, by omega⟩
  have hleast := hb.least _ hi
  have hpow : 9 ^ 9 ≤ minOrder cf ^ (i + 9) := by
    have hnine : 9 ≤ minOrder cf := by rw [minOrder]; omega
    exact (Nat.pow_le_pow_left hnine 9).trans (Nat.pow_le_pow_right (by omega) (by omega))
  have hnine : 9 ≤ minEntries cf := by rw [minEntries]; omega
  have hmany : 2 * 9 ^ 9 * 9 ≤ 2 * minOrder cf ^ (i + 9) * minEntries cf :=
    Nat.mul_le_mul (Nat.mul_le_mul_left 2 hpow) hnine
  omega

theorem order_of_fresh (hf : Fresh cf t) : cf.maxOrder = (cf.blockSize - 40) / 12 ∧
    cf.maxEntries = (cf.blockSize - 40) / 12 := by
  obtain ⟨filename, blockSize, heap, cf₀, hlt, hinit⟩ := hf
  obtain ⟨-, hsize, -⟩ := accepted hinit
  have horder := order_geometry hsize hlt
  unfold bplusTreeInit at hinit
  split_ifs at hinit
  all_goals cases hinit
  exact horder

end Dumps

theorem fresh_large : Fresh (geometry 256) small := by
  refine ⟨"index", 256, fun _ ↦ blank, geometry 256, by norm_num, ?_⟩
  unfold bplusTreeInit
  rw [if_neg (by decide), if_neg (by decide), if_neg (by decide), if_neg (by decide)]
  rfl

/-- Blocks of 128 bytes take seven children or entries, so that more than `7 ^ 10` keys make more
levels than the stack has room for. -/
theorem dump_overflows_small : ∃ ops fuel xs t₁,
    (∀ e ∈ ops, -2 ^ 31 ≤ e.1 ∧ e.1 < (2 ^ 31 : ℤ)) ∧
      puts (geometry 128) fuel ops small = .ok (xs, t₁) ∧
      ∃ N, ∀ rounds, N ≤ rounds → bplusTreeDump (geometry 128) rounds t₁ = .error .outOfBounds := by
  obtain ⟨n, hn⟩ : ∃ n : ℕ, n = 7 ^ 10 + 1 := ⟨_, rfl⟩
  obtain ⟨ks, hks⟩ : ∃ ks : List ℤ, ks = (List.range n).map fun i : ℕ ↦ (i : ℤ) := ⟨_, rfl⟩
  have hlen : ks.length = n := by rw [hks, List.length_map, List.length_range]
  have hnodup : ks.Nodup := hks ▸ List.nodup_range.map Nat.cast_injective
  obtain ⟨xs, t₁, hrun, m, d, hfilled⟩ := fills_run fresh_small hnodup le_rfl
  refine ⟨fills ks, ks.length, xs, t₁, fun e he ↦ ?_, hrun, ?_⟩
  · obtain ⟨k, hk, rfl⟩ := List.mem_map.mp he
    rw [hks] at hk
    obtain ⟨i, hi, rfl⟩ := List.mem_map.mp hk
    have hlt := List.mem_range.mp hi
    norm_num at hn
    constructor
    · dsimp only
      omega
    · dsimp only
      omega
  · obtain ⟨height, -, hbetween, -, hover⟩ := dump_of_stands fresh_small.sized hfilled.stands
    refine ⟨height, hover ?_⟩
    have hcf : geometry 128 = ⟨128, 7, 7⟩ := by decide
    have hmost := hbetween.most
    rw [hfilled.length, hlen, hn, hcf] at hmost
    by_contra hle
    have hpow : 7 ^ (height - 1) ≤ 7 ^ 9 :=
      Nat.pow_le_pow_right (by norm_num) (by have hmax : maxLevel = 10 := rfl; omega)
    have hseven : (7 : ℤ).toNat = 7 := rfl
    rw [hseven] at hmost
    omega

end MqssdModel.BPlusTree.Height
