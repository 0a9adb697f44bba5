import Mathlib.Data.Int.Interval
import MqssdModel.BPlusTree.Evaluation
import MqssdModel.BPlusTree.Scan

namespace MqssdModel.BPlusTree.RangeRun

open Data.Arrays Data.Assoc Data.Chain Data.Rows Data.TotalRun Machine Caching Removal Views Shape
  Allocation Ordering Pending Steps Search Descent LeafLevel Boot Lookup Put History
  Reading Evaluation Scan

variable {cf : Config} {t₀ t : Tree} {st : Store} {w : Row} {o d i hi start : ℤ} {us : List Row}
  {n : Node} {c : Ptr} {m es es' : List (ℤ × ℤ)} {xs ys : List ℤ} {fuel j p : ℕ} {read : Reads}

section Start

variable {a b : Row} {k : ℤ}

/-- The scan does not start in the next leaf, or it starts there at an entry from which the same
value is found. -/
def Starts (t : Tree) (lo hi : ℤ) : Prop :=
  ∀ o n, Visits t lo o → t.file o = some n → isLeaf n = true →
    (∃ j, 0 ≤ j ∧ j < n.children ∧ lo ≤ n.key j) ∨ n.next = invalidOffset ∨
      ∃ n', t.file n.next = some n' ∧ n.children < n'.children ∧
        (n'.key n.children ≤ hi ∨ hi < n'.key 0)

/-- What a right scan finds: the value of the last key up to `hi` of those from `lo` on. -/
def range (m : List (ℤ × ℤ)) (lo hi : ℤ) : ℤ := best hi (-1) (m.filter fun e ↦ lo ≤ e.1)

/-- The entries from the smaller key on are those behind a cut. -/
theorem range_cut (hm : m = es ++ es') (h₁ : ∀ e ∈ es, e.1 < k) (h₂ : ∀ e ∈ es', k ≤ e.1) :
    range m k hi = best hi (-1) es' := by
  rw [range, hm, List.filter_append, List.filter_eq_nil_iff.mpr, List.filter_eq_self.mpr,
    List.nil_append]
  · exact fun e he ↦ by simpa using h₂ e he
  · exact fun e he ↦ by simpa using h₁ e he

/-- Entries in front of one up to `hi` can be skipped, and so can all behind one above `hi`. -/
theorem best_drop (h : ((es ++ es').map Prod.fst).Pairwise (· < ·))
    (hstart : (∃ e ∈ es'.head?, e.1 ≤ hi) ∨ ∃ e ∈ (es ++ es').head?, hi < e.1) :
    best hi start es' = best hi start (es ++ es') := by
  rw [List.pairwise_map] at h
  rcases hstart with ⟨e, he, hle⟩ | ⟨e, he, hlt⟩
  · obtain ⟨es', rfl⟩ := List.head?_eq_some_iff.mp he
    have hlt := (List.pairwise_append.mp h).2.2
    exact (best_skip (fun e' he' ↦ (hlt e' he' e List.mem_cons_self).le.trans hle) hle).symm
  · have hall : ∀ e' ∈ es ++ es', hi < e'.1 := by
      obtain ⟨l, hl⟩ := List.head?_eq_some_iff.mp he
      rw [hl] at h ⊢
      intro e' he'
      rcases List.mem_cons.mp he' with rfl | he'
      · exact hlt
      · exact hlt.trans ((List.pairwise_cons.mp h).1 e' he')
    rw [best_eq_start hall, best_eq_start fun e' he' ↦ hall e' (List.mem_append_right _ he')]

/-- Where the scan starts in the next leaf, it starts at an entry of it. -/
theorem Starts.next (hstart : Starts t₀ k hi) (hcf : Sized cf) (h : AtLeaf cf st a o b us d k n)
    (hvisit : Visits t₀ k o) (hfile : t₀.file o = some n) (hall : ∀ e ∈ pairsAt st o, e.1 < k)
    {v : ℤ} {n' : Node} (hnodes : nodes b = v :: zs) (hd : st.disk v = some (block n'))
    (hnext : t₀.file n.next = some n') : (block n).vals.length < (block n').vals.length ∧
      (n'.key (block n).vals.length ≤ hi ∨ hi < n'.key 0) := by
  have hcur := cursor_of_atLeaf hcf h
  have hmove := hcur.move hnodes hd
  rcases hstart o n hvisit hfile (by simp [isLeaf, h.leaf.type]) with
    ⟨j, hj₀, hj, hle⟩ | hinv | ⟨n'', hn'', hlt, hkey⟩
  · obtain ⟨j, rfl⟩ := Int.eq_ofNat_of_zero_le hj₀
    rw [h.leaf.children, Nat.cast_lt] at hj
    have hmem : (n.key j, n.data j) ∈ pairsAt st o := by
      refine List.mem_of_mem_drop (i := j) ?_
      rw [hcur.pairs_drop hj]
      exact List.mem_cons_self
    exact absurd hle (not_le.mpr (hall _ hmem))
  · have hv : n.next = v := by rw [hcur.next_eq, hnodes, List.headD_cons]
    refine absurd (hv.symm.trans hinv) (hcur.valid v ?_)
    rw [hcur.row, hnodes]
    simp
  · obtain rfl := Option.some.inj (hnext.symm.trans hn'')
    rw [h.leaf.children, hmove.leaf.children] at hlt
    rw [h.leaf.children] at hkey
    exact ⟨by omega, hkey⟩

theorem scanFrom_run (hr : Right cf read) (hcf : Sized cf) (h : AtLeaf cf st a o b us d k n)
    (hseen : Seen t₀ t st c n) (hvisit : Visits t₀ k o) (hfile : t₀.file o = some n)
    (hstart : Starts t₀ k hi) (hfuel : (entries st (a ++ .node o :: b)).length ≤ fuel) :
    Runs (scanFrom read fuel k hi c) t fun x t' ↦ Still t₀ t' ∧
      x = range (entries st (a ++ .node o :: b)) k hi := by
  have hcur := cursor_of_atLeaf hcf h
  obtain ⟨ha, hb⟩ := h.entries_sides
  have hent : entries st (a ++ .node o :: b) = entries st a ++ (pairsAt st o ++ entries st b) := by
    rw [entries_append, entries_cons_node]
  have hlen := hfuel
  rw [hent, List.length_append, List.length_append] at hlen
  have hbefore : ∀ {es : List (ℤ × ℤ)}, (∀ e ∈ es, e.1 < k) → ∀ e ∈ entries st a ++ es, e.1 < k := by
    intro es hes e he
    exact (List.mem_append.mp he).elim (ha e) (hes e)
  refine scanFrom_cases hcf h hseen ?_ ?_ ?_
  · intro hall hnil
    have hnone : entries st b = [] := by rw [entries, hnil, List.flatMap_nil]
    have hm : entries st (a ++ .node o :: b) = (entries st a ++ pairsAt st o) ++ [] := by
      rw [hent, hnone, List.append_nil, List.append_nil]
    refine ⟨hseen.still, ?_⟩
    rw [range_cut hm (hbefore hall) fun e he ↦ absurd he List.not_mem_nil]
    rfl
  · intro j hj htake hdrop
    have hm : entries st (a ++ .node o :: b) = (entries st a ++ (pairsAt st o).take j) ++
        ((pairsAt st o).drop j ++ entries st b) := by
      rw [hent, List.append_assoc, ← List.append_assoc (List.take j _), List.take_append_drop]
    refine (scan_run hr hcur hseen hj ?_).mono ?_
    · rw [List.length_append, List.length_drop]
      change _ + (entries st b).length ≤ fuel
      omega
    · rintro _ t' ⟨hstill, rfl⟩
      refine ⟨hstill, ?_⟩
      rw [range_cut hm (hbefore htake)]
      · rfl
      · intro e he
        exact (List.mem_append.mp he).elim (hdrop e) fun he ↦ (hb e he).le
  · intro hall v zs c' n' t' hnodes hd hnext hseen'
    have hmove := hcur.move hnodes hd
    have hm : entries st (a ++ .node o :: b) = (entries st a ++ pairsAt st o) ++ entries st b := by
      rw [hent, List.append_assoc]
    have hentb : entries st b = pairsAt st v ++ zs.flatMap (pairsAt st) := by
      rw [entries, hnodes, List.flatMap_cons]
    obtain ⟨hlt, hkey⟩ := hstart.next hcf h hvisit hfile hall hnodes hd hnext
    refine (scan_run hr hmove hseen' hlt ?_).mono ?_
    · rw [hentb, List.length_append] at hlen
      rw [List.length_append, List.length_drop]
      omega
    · rintro _ t'' ⟨hstill, rfl⟩
      refine ⟨hstill, ?_⟩
      rw [range_cut hm (hbefore hall) fun e he ↦ (hb e he).le]
      have hsorted : ((entries st b).map Prod.fst).Pairwise (· < ·) := by
        have hs := h.good.ordered.entries (Leaves.lengths h.good.leaves)
        rw [hm] at hs
        exact hs.sublist (List.Sublist.map _ (List.sublist_append_right _ _))
      have hcut : entries st b = (pairsAt st v).take (block n).vals.length ++
          ((pairsAt st v).drop (block n).vals.length ++ zs.flatMap (pairsAt st)) := by
        rw [hentb, ← List.append_assoc, List.take_append_drop]
      rw [hcut] at hsorted ⊢
      refine best_drop hsorted (hkey.imp (fun hle ↦ ?_) fun hgt ↦ ?_)
      · rw [hmove.pairs_drop hlt]
        exact ⟨_, rfl, hle⟩
      · rw [← hcut, hentb, ← List.drop_zero (l := pairsAt st v), hmove.pairs_drop (by omega)]
        exact ⟨_, rfl, hgt⟩

end Start

section Results

/-- The value of the largest key in the interval, -1 if there is none. -/
def Largest (m : Table) (lo hi x : ℤ) : Prop :=
  (∃ k, lo ≤ k ∧ k ≤ hi ∧ m k = some x ∧ ∀ k', lo ≤ k' → k' ≤ hi → m k' ≠ none → k' ≤ k) ∨
    (∀ k, lo ≤ k → k ≤ hi → m k = none) ∧ x = -1

variable {lo k₁ k₂ : ℤ} {ops : List (ℤ × ℤ)}

theorem largest_range (h : (m.map Prod.fst).Pairwise (· < ·)) :
    Largest (table m) lo hi (range m lo hi) := by
  have hnodup : (m.map Prod.fst).Nodup := h.imp fun hlt ↦ hlt.ne
  have hsorted : ((m.filter fun e ↦ lo ≤ e.1).map Prod.fst).Pairwise (· < ·) :=
    h.sublist (List.filter_sublist.map _)
  have hmem : ∀ e, e ∈ (m.filter fun e ↦ lo ≤ e.1) ↔ e ∈ m ∧ lo ≤ e.1 := fun e ↦ by
    rw [List.mem_filter, decide_eq_true_eq]
  rcases best_spec hsorted (-1) with ⟨e, he, hle, hbest, hall⟩ | ⟨hall, hbest⟩
  · obtain ⟨hem, hlo⟩ := (hmem e).mp he
    refine Or.inl ⟨e.1, hlo, hle, ?_, fun k' hlo' hhi' hk' ↦ ?_⟩
    · rw [table_eq_some hnodup, range, hbest]
      exact hem
    · obtain ⟨v, hv⟩ := Option.ne_none_iff_exists'.mp hk'
      exact hall (k', v) ((hmem _).mpr ⟨(table_eq_some hnodup).mp hv, hlo'⟩) hhi'
  · refine Or.inr ⟨fun k hk hk' ↦ ?_, hbest⟩
    rw [table_eq_none, List.mem_map]
    rintro ⟨e, he, rfl⟩
    exact absurd hk' (not_le.mpr (hall e ((hmem e).mpr ⟨he, hk⟩)))

theorem bounds_eq : (if k₁ ≤ k₂ then k₁ else k₂) = min k₁ k₂ ∧
    (if (if k₁ ≤ k₂ then k₁ else k₂) = k₁ then k₂ else k₁) = max k₁ k₂ := by
  split_ifs <;> omega

theorem getRange_run (hr : Right cf read) (hcf : Sized cf) (h : Stands cf t m d)
    (hstart : Starts t (min k₁ k₂) (max k₁ k₂)) (hfuel : m.length < fuel) :
    Runs (bplusTreeGetRange cf read fuel k₁ k₂) t fun x t' ↦ Still t t' ∧
      x = range m (min k₁ k₂) (max k₁ k₂) := by
  unfold bplusTreeGetRange
  dsimp only
  rw [bounds_eq.2, bounds_eq.1]
  obtain ⟨st, hrep, ⟨rfl, hroot, -⟩ | ⟨w, us, h, rfl⟩⟩ := h
  · exact runs_get_bind (atEnd_run (hrep.root.trans hroot) (runs_pure ⟨still_refl, rfl⟩))
  · have hlen := length_levels h
    refine runs_get_bind (atLeaf_run hcf h hrep (by omega) ?_)
    intro a b o t' c n hw hleaf hseen hvisit hfile
    subst hw
    exact scanFrom_run hr hcf hleaf hseen hvisit hfile hstart hfuel.le

/-- Wherever the scan starts, it ends and leaves the tree as it is. -/
theorem getRange_still {behind : Behind} (hcf : Sized cf) (h : Stands cf t m d)
    (hfuel : m.length < fuel) :
    Runs (bplusTreeGetRange cf (plain cf behind) fuel k₁ k₂) t fun _ t' ↦ Still t t' := by
  unfold bplusTreeGetRange
  obtain ⟨st, hrep, ⟨rfl, hroot, -⟩ | ⟨w, us, h, rfl⟩⟩ := h
  · exact runs_get_bind (atEnd_run (hrep.root.trans hroot) (runs_pure still_refl))
  · have hlen := length_levels h
    refine runs_get_bind (atLeaf_run hcf h hrep (by omega) ?_)
    intro a b o t' c n hw hleaf hseen _ _
    subst hw
    have hcur := cursor_of_atLeaf hcf hleaf
    rw [entries_append, entries_cons_node, List.length_append, List.length_append] at hfuel
    refine scanFrom_cases hcf hleaf hseen (fun _ _ ↦ hseen.still) ?_ ?_
    · intro j _ _ _
      refine scan_any hcur hseen ?_
      change (entries st b).length + _ ≤ fuel
      omega
    · intro _ v zs c' n' t'' hnodes hd _ hseen'
      refine scan_any (hcur.move hnodes hd) hseen' ?_
      rw [entries.eq_1 st b, hnodes, List.flatMap_cons, List.length_append] at hfuel
      omega

/-- A leaf that is the root is the only one that a search comes to. -/
theorem starts_of_root {n : Node} (hn : t.file t.root = some n) (hleaf : isLeaf n = true)
    (hnext : n.next = invalidOffset) : Starts t lo hi := by
  have hroot : ∀ o, Visits t lo o → o = t.root := by
    intro o hvisit
    induction hvisit with
    | root => rfl
    | child _ hn' hinner ih =>
      rw [ih, hn, Option.some.injEq] at hn'
      rw [← hn', hleaf] at hinner
      exact absurd hinner (by decide)
  intro o n' hvisit hn' _
  rw [hroot o hvisit, hn, Option.some.injEq] at hn'
  exact Or.inr (Or.inl (hn' ▸ hnext))

/-- The entries (10, 1), (20, 2) and so on. -/
def tens (n : ℕ) : List (ℤ × ℤ) := (List.range n).map fun i ↦ (10 * (i : ℤ) + 10, (i : ℤ) + 1)

/-- A test that a program fails with the given fault, to be evaluated. -/
def fails {α : Type} (f : M α) (t : Tree) (e : Fault) : Bool :=
  match f t with
  | .ok _ => false
  | .error e' => e' == e

theorem error_of_fails {α : Type} {f : M α} {e : Fault} (h : fails f t e = true) :
    f t = .error e := by
  unfold fails at h
  split at h
  · cases h
  · rename_i e' he
    rw [he, eq_of_beq h]

theorem reads_skipped : ends (puts (geometry 128) 10 (tens 9)) small (fun _ t ↦
    ends (bplusTreeGetRange (geometry 128) strict 10 45 55) t fun x _ ↦ x == -1) = true := by
  have hcf : geometry 128 = ⟨128, 7, 7⟩ := by decide
  rw [hcf, ← putsForced_eq _ _ 8 [0, 128, 256]]
  decide +kernel

theorem reads_behind : ends (puts (geometry 128) 10 (tens 8)) small (fun _ t ↦
    fails (bplusTreeGetRange (geometry 128) strict 10 45 100) t .outOfBounds) = true := by
  have hcf : geometry 128 = ⟨128, 7, 7⟩ := by decide
  rw [hcf, ← putsForced_eq _ _ 8 [0, 128, 256]]
  decide +kernel

end Results

end MqssdModel.BPlusTree.RangeRun
