import MqssdModel.BPlusTree.GetRun

namespace MqssdModel.BPlusTree.Scan

open Data.Arrays Data.Assoc Data.Chain Data.Rows Data.TotalRun Machine Caching Removal Views Shape
  Allocation Ordering Pending Steps Search Descent LeafLevel Boot Lookup Put History
  Reading

/-- The value of the last of the leading entries with a key up to `hi`. -/
def best (hi start : ℤ) : List (ℤ × ℤ) → ℤ
  | [] => start
  | e :: es => if e.1 ≤ hi then best hi e.2 es else start

variable {cf : Config} {t₀ t : Tree} {st : Store} {w : Row} {o d i hi start : ℤ} {us : List Row}
  {n : Node} {c : Ptr} {m es es' : List (ℤ × ℤ)} {xs ys : List ℤ} {fuel j p : ℕ} {read : Reads}

section Best

theorem best_eq_start (h : ∀ e ∈ es, hi < e.1) : best hi start es = start := by
  cases es with
  | nil => rfl
  | cons e es => exact if_neg (by have := h e List.mem_cons_self; omega)

/-- Entries that are not above `hi` can be skipped if the next one is not either. -/
theorem best_skip {e : ℤ × ℤ} (h : ∀ e' ∈ es, e'.1 ≤ hi) (he : e.1 ≤ hi) :
    best hi start (es ++ e :: es') = best hi start (e :: es') := by
  induction es generalizing start with
  | nil => rfl
  | cons x es ih =>
    have hx : x.1 ≤ hi := h x List.mem_cons_self
    rw [List.cons_append, best, if_pos hx, ih fun e' he' ↦ h e' (List.mem_cons_of_mem _ he'), best,
      if_pos he, best, if_pos he]

/-- In a sorted list it is the value of the largest key up to `hi`. -/
theorem best_spec (h : (es.map Prod.fst).Pairwise (· < ·)) (start : ℤ) :
    (∃ e ∈ es, e.1 ≤ hi ∧ best hi start es = e.2 ∧ ∀ e' ∈ es, e'.1 ≤ hi → e'.1 ≤ e.1) ∨
      (∀ e ∈ es, hi < e.1) ∧ best hi start es = start := by
  induction es generalizing start with
  | nil => exact Or.inr ⟨fun e he ↦ absurd he List.not_mem_nil, rfl⟩
  | cons x es ih =>
    rw [List.map_cons, List.pairwise_cons] at h
    have hlt : ∀ e ∈ es, x.1 < e.1 := fun e he ↦ h.1 _ (List.mem_map_of_mem he)
    by_cases hx : x.1 ≤ hi
    · rw [best, if_pos hx]
      refine Or.inl ?_
      rcases ih h.2 x.2 with ⟨e, he, hmax, hbest, hall⟩ | ⟨habove, hbest⟩
      · refine ⟨e, List.mem_cons_of_mem _ he, hmax, hbest, fun e' he' hle ↦ ?_⟩
        rcases List.mem_cons.mp he' with rfl | he'
        · exact (hlt e he).le
        · exact hall e' he' hle
      · refine ⟨x, List.mem_cons_self, hx, hbest, fun e' he' hle ↦ ?_⟩
        rcases List.mem_cons.mp he' with rfl | he'
        · exact le_rfl
        · exact absurd hle (not_le.mpr (habove e' he'))
    · rw [best, if_neg hx]
      refine Or.inr ⟨fun e he ↦ ?_, rfl⟩
      rcases List.mem_cons.mp he with rfl | he
      · omega
      · have := hlt e he
        omega

end Best

/-- Reads that are right at the entries of a leaf. -/
def Right (cf : Config) (read : Reads) : Prop :=
  ∀ {t₀ t st c n k}, Seen t₀ t st c n → Leaf n k → (k : ℤ) ≤ cf.maxEntries → ∀ j < k,
    Runs (read.key c j) t (fun x t' ↦ x = n.key j ∧ t' = t) ∧
      Runs (read.data c j) t fun x t' ↦ x = n.data j ∧ t' = t

theorem right_strict : Right cf strict := by
  intro t₀ t st c n k hseen hn hcap j hj
  have hi : 0 ≤ (j : ℤ) ∧ (j : ℤ) < n.children := by
    rw [hn.children]
    omega
  constructor
  · refine hseen.node_bind ?_
    rw [if_pos hi]
    exact runs_pure ⟨rfl, rfl⟩
  · refine hseen.node_bind ?_
    rw [if_pos hi]
    exact runs_pure ⟨rfl, rfl⟩

theorem peek_run {f : Field} {behind : ℤ → ℤ} (hseen : Seen t₀ t st c n) :
    Runs (peek cf f behind c i) t fun x t' ↦
      x = (if 0 ≤ i ∧ i < f.cap cf n then f.get n i else behind i) ∧ t' = t :=
  hseen.node_bind (runs_pure ⟨rfl, rfl⟩)

theorem right_plain {behind : Behind} : Right cf (plain cf behind) := by
  intro t₀ t st c n k hseen hn hcap j hj
  have hleaf : isLeaf n = true := by simp [isLeaf, hn.type]
  have hkey : keyField.cap cf n = cf.maxEntries := if_pos hleaf
  have hdata : dataField.cap cf n = cf.maxEntries := rfl
  constructor
  · refine (peek_run hseen).mono ?_
    rintro _ _ ⟨rfl, rfl⟩
    exact ⟨if_pos (by omega), rfl⟩
  · refine (peek_run hseen).mono ?_
    rintro _ _ ⟨rfl, rfl⟩
    exact ⟨if_pos (by omega), rfl⟩

/-- The leaves `ys` come behind the one at `o`, which is read as `n`. -/
structure Cursor (cf : Config) (st : Store) (w : Row) (xs : List ℤ) (o : ℤ) (ys : List ℤ)
    (n : Node) : Prop where
  leaves : Leaves cf st w
  valid : ∀ v ∈ nodes w, v ≠ invalidOffset
  row : nodes w = xs ++ o :: ys
  disk : st.disk o = some (block n)

namespace Cursor

variable (h : Cursor cf st w xs o ys n)

include h

theorem content_eq : content st o = some (Block.content (block n)) := by
  rw [content, h.disk]
  rfl

theorem ok : LeafOk cf w (Block.content (block n)) := by
  obtain ⟨c, hc, hok⟩ := h.leaves.leaf o (by rw [h.row]; simp)
  rw [h.content_eq, Option.some.injEq] at hc
  exact hc ▸ hok

theorem leaf : Leaf n (block n).vals.length := Leaf.of_block h.ok.kind h.ok.count

theorem cap : ((block n).vals.length : ℤ) ≤ cf.maxEntries := h.ok.cap

theorem next_eq : n.next = ys.headD invalidOffset := by
  have hl := h.leaves.linked
  rw [h.row] at hl
  have hm := hl.middle
  rw [links, h.disk, Option.map_some, Option.some.injEq] at hm
  exact congrArg Prod.snd hm

theorem pairs_eq : pairsAt st o =
    (front n.key (block n).vals.length).zip (front n.data (block n).vals.length) := by
  have hkeys : (block n).keys = front n.key (block n).vals.length :=
    congrArg Block.keys h.leaf.block_eq
  have hvals : (block n).vals = front n.data (block n).vals.length :=
    congrArg Block.vals h.leaf.block_eq
  rw [pairsAt_eq h.content_eq, ← hvals, ← hkeys]
  rfl

theorem length_pairs : (pairsAt st o).length = (block n).vals.length := by
  rw [h.pairs_eq]
  simp

theorem pairs_drop (hj : j < (block n).vals.length) :
    (pairsAt st o).drop j = (n.key j, n.data j) :: (pairsAt st o).drop (j + 1) := by
  have hlt : j < (pairsAt st o).length := by rwa [h.length_pairs]
  rw [List.drop_eq_getElem_cons hlt]
  congr 1
  simp only [h.pairs_eq, List.getElem_zip, getElem_front]

/-- The next leaf, if there is one. -/
theorem move {v : ℤ} {n' : Node} (hys : ys = v :: zs) (hd : st.disk v = some (block n')) :
    Cursor cf st w (xs ++ [o]) v zs n' :=
  ⟨h.leaves, h.valid, by rw [h.row, hys]; simp, hd⟩

theorem seek_next (hseen : Seen t₀ t st c n) {Q : Option Ptr → Tree → Prop}
    (hend : ys = [] → Q none t)
    (hnext : ∀ v zs c' n' t', ys = v :: zs → st.disk v = some (block n') → t₀.file v = some n' →
      Seen t₀ t' st c' n' → Q (some c') t') : Runs (nodeSeek n.next) t Q := by
  cases hys : ys with
  | nil =>
    have hinv : n.next = invalidOffset := by rw [h.next_eq, hys, List.headD_nil]
    unfold nodeSeek
    rw [if_pos hinv]
    exact runs_pure (hend hys)
  | cons v zs =>
    have hv : v ∈ nodes w := by rw [h.row, hys]; simp
    obtain ⟨c', hc', -⟩ := h.leaves.leaf v hv
    obtain ⟨bv, hbv, -⟩ := Option.map_eq_some_iff.mp hc'
    have heq : n.next = v := by rw [h.next_eq, hys, List.headD_cons]
    rw [heq]
    refine (seek_run hseen.still hseen.rep (h.valid v hv) hbv).mono ?_
    rintro _ t' ⟨c', n', rfl, hfile, rfl, hseen'⟩
    exact hnext v zs c' n' t' hys hbv hfile hseen'

end Cursor

/-- The scan from an entry on: it goes through the entries in order, as far as `hi`. -/
theorem scan_run (hr : Right cf read) (h : Cursor cf st w xs o ys n) (hseen : Seen t₀ t st c n)
    (hj : j < (block n).vals.length)
    (hfuel : ((pairsAt st o).drop j ++ ys.flatMap (pairsAt st)).length ≤ fuel) :
    Runs (scan read hi fuel (some c) j start) t fun x t' ↦ Still t₀ t' ∧
      x = best hi start ((pairsAt st o).drop j ++ ys.flatMap (pairsAt st)) := by
  induction fuel generalizing t c n o xs ys j start with
  | zero =>
    rw [h.pairs_drop hj] at hfuel
    exact absurd hfuel (by simp)
  | succ fuel ih =>
    rw [h.pairs_drop hj] at hfuel ⊢
    rw [List.cons_append] at hfuel ⊢
    rw [List.length_cons] at hfuel
    obtain ⟨hkey, hdata⟩ := hr hseen h.leaf h.cap j hj
    unfold scan
    refine hkey.seq ?_
    rintro _ _ ⟨rfl, rfl⟩
    rw [best]
    by_cases hmax : n.key j ≤ hi
    · rw [if_pos hmax, if_pos hmax]
      refine hdata.seq ?_
      rintro _ _ ⟨rfl, rfl⟩
      refine hseen.node_bind ?_
      rw [h.leaf.children]
      by_cases hlast : (j : ℤ) + 1 ≥ (block n).vals.length
      · rw [if_pos hlast]
        have hdrop : (pairsAt st o).drop (j + 1) = [] := by
          apply List.drop_eq_nil_of_le
          rw [h.length_pairs]
          omega
        rw [hdrop, List.nil_append] at hfuel ⊢
        refine (h.seek_next hseen (Q := fun q t' ↦ Runs (scan read hi fuel q 0 (n.data j)) t'
          fun x t' ↦ Still t₀ t' ∧ x = best hi (n.data j) (ys.flatMap (pairsAt st))) ?_ ?_).seq
          fun _ _ hq ↦ hq
        · rintro rfl
          unfold scan
          exact runs_pure ⟨hseen.still, rfl⟩
        · rintro v zs c' n' t' rfl hd - hseen'
          have hmove := h.move rfl hd
          have hone : 0 < (block n').vals.length := hmove.ok.one
          have hall : (pairsAt st v).drop 0 ++ zs.flatMap (pairsAt st) =
              (v :: zs).flatMap (pairsAt st) := by rw [List.drop_zero, List.flatMap_cons]
          rw [← hall] at hfuel ⊢
          exact ih (j := 0) hmove hseen' hone (by omega)
      · rw [if_neg hlast]
        have hcast : ((j + 1 : ℕ) : ℤ) = j + 1 := by omega
        rw [← hcast]
        exact ih h hseen (by omega) (by omega)
    · rw [if_neg hmax, if_neg hmax]
      exact runs_pure ⟨hseen.still, rfl⟩

/-- From an index that may be none of an entry, the scan still ends. -/
theorem scan_any {behind : Behind} (h : Cursor cf st w xs o ys n) (hseen : Seen t₀ t st c n)
    (hfuel : (ys.flatMap (pairsAt st)).length + (pairsAt st o).length ≤ fuel) :
    Runs (scan (plain cf behind) hi fuel (some c) j start) t fun _ t' ↦ Still t₀ t' := by
  by_cases hj : j < (block n).vals.length
  · refine (scan_run right_plain h hseen hj ?_).mono fun _ _ hq ↦ hq.1
    rw [List.length_append, List.length_drop]
    omega
  · have hone : 0 < (block n).vals.length := h.ok.one
    have hlen := h.length_pairs
    obtain ⟨fuel, rfl⟩ : ∃ f, fuel = f + 1 := ⟨fuel - 1, by omega⟩
    unfold scan
    refine (peek_run hseen).seq ?_
    rintro x _ ⟨-, rfl⟩
    by_cases hx : x ≤ hi
    · rw [if_pos hx]
      refine (peek_run hseen).seq ?_
      rintro y _ ⟨-, rfl⟩
      refine hseen.node_bind ?_
      rw [h.leaf.children, if_pos (by omega)]
      refine (h.seek_next hseen (Q := fun q t' ↦
        Runs (scan (plain cf behind) hi fuel q 0 y) t' fun _ t' ↦ Still t₀ t') ?_ ?_).seq
        fun _ _ hq ↦ hq
      · rintro rfl
        unfold scan
        exact runs_pure hseen.still
      · rintro v zs c' n' t' rfl hd - hseen'
        have hmove := h.move rfl hd
        have hone' : 0 < (block n').vals.length := hmove.ok.one
        refine (scan_run (j := 0) right_plain hmove hseen' hone' ?_).mono fun _ _ hq ↦ hq.1
        rw [List.flatMap_cons, List.length_append] at hfuel
        rw [List.drop_zero, List.length_append]
        omega
    · rw [if_neg hx]
      exact runs_pure hseen.still

section Start

variable {a b : Row} {k : ℤ}

theorem cursor_of_atLeaf (hcf : Sized cf) (h : AtLeaf cf st a o b us d k n) :
    Cursor cf st (a ++ .node o :: b) (nodes a) o (nodes b) n :=
  ⟨h.good.leaves, fun _ hv ↦ h.ne_invalid hcf hv, by rw [nodes_append, nodes_cons_node], h.disk⟩

/-- The index that the search for the smaller key gives: that of the first entry from it on. -/
theorem index_eq (h : AtLeaf cf st a o b us d k n) : ∃ j ≤ (block n).vals.length,
    (keyBinarySearch n k = j ∧ j < (block n).vals.length ∨ keyBinarySearch n k = -j - 1) ∧
    (∀ e ∈ (pairsAt st o).take j, e.1 < k) ∧ ∀ e ∈ (pairsAt st o).drop j, k ≤ e.1 := by
  have hcount : 0 ≤ keyCount n := by
    rw [h.keyCount_eq]
    omega
  have hfst : ∀ {ks vs : List ℤ} {p : ℤ → Prop}, (∀ x ∈ ks, p x) → ∀ e ∈ ks.zip vs, p e.1 :=
    fun hp e he ↦ hp _ (List.of_mem_zip he).1
  by_cases hk : k ∈ (block n).keys
  · obtain ⟨ks₁, ks₂, vs₁, v, vs₂, hkeys, hvals, hlen, -, h₁, h₂⟩ := h.exists_entry hk
    have hzip : pairsAt st o = ks₁.zip vs₁ ++ (k :: ks₂).zip (v :: vs₂) := by
      rw [h.pairs_eq, hkeys, hvals, List.zip_append hlen]
    have hl : (ks₁.zip vs₁).length = ks₁.length := by rw [List.length_zip, hlen, min_self]
    have hlt : ks₁.length < (block n).vals.length := by
      rw [hvals, List.length_append, List.length_cons]
      omega
    refine ⟨ks₁.length, hlt.le, Or.inl ⟨search_found hcount hkeys h₁ h₂, hlt⟩, ?_, ?_⟩
    · rw [hzip, ← hl, List.take_left]
      exact hfst h₁
    · rw [hzip, ← hl, List.drop_left]
      refine hfst fun x hx ↦ ?_
      rcases List.mem_cons.mp hx with rfl | hx
      · exact le_rfl
      · exact (h₂ x hx).le
  · obtain ⟨ks₁, ks₂, vs₁, vs₂, hkeys, hvals, hlen, -, h₁, h₂⟩ := h.exists_gap hk
    have hzip : pairsAt st o = ks₁.zip vs₁ ++ ks₂.zip vs₂ := by
      rw [h.pairs_eq, hkeys, hvals, List.zip_append hlen]
    have hl : (ks₁.zip vs₁).length = ks₁.length := by rw [List.length_zip, hlen, min_self]
    have hle : ks₁.length ≤ (block n).vals.length := by
      rw [hvals, List.length_append]
      omega
    refine ⟨ks₁.length, hle, Or.inr (search_absent hcount hkeys h₁ h₂), ?_, ?_⟩
    · rw [hzip, ← hl, List.take_left]
      exact hfst h₁
    · rw [hzip, ← hl, List.drop_left]
      exact hfst fun x hx ↦ (h₂ x hx).le

/-- The scan starts at the first entry from the smaller key on if there is one in the leaf. Else it
starts in the next leaf, and there at the number of entries of this one. -/
theorem scanFrom_cases (hcf : Sized cf) (h : AtLeaf cf st a o b us d k n)
    (hseen : Seen t₀ t st c n) {R : ℤ → Tree → Prop}
    (hend : (∀ e ∈ pairsAt st o, e.1 < k) → nodes b = [] → R (-1) t)
    (hhere : ∀ j < (block n).vals.length, (∀ e ∈ (pairsAt st o).take j, e.1 < k) →
      (∀ e ∈ (pairsAt st o).drop j, k ≤ e.1) → Runs (scan read hi fuel (some c) j (-1)) t R)
    (hnext : (∀ e ∈ pairsAt st o, e.1 < k) → ∀ v zs c' n' t', nodes b = v :: zs →
      st.disk v = some (block n') → t₀.file n.next = some n' → Seen t₀ t' st c' n' →
      Runs (scan read hi fuel (some c') (block n).vals.length (-1)) t' R) :
    Runs (scanFrom read fuel k hi c) t R := by
  have hcur := cursor_of_atLeaf hcf h
  obtain ⟨j, hj, hsearch, htake, hdrop⟩ := index_eq h
  refine hseen.node_bind ?_
  rcases hsearch with ⟨hidx, hlt⟩ | hidx
  · rw [hidx, if_neg (by omega)]
    exact hhere j hlt htake hdrop
  · have hneg : -(-(j : ℤ) - 1) - 1 = j := by omega
    rw [hidx, if_pos (by omega), hneg, h.leaf.children]
    by_cases hlt : (j : ℤ) ≥ (block n).vals.length
    · obtain rfl : j = (block n).vals.length := by omega
      have hall : (pairsAt st o).take (block n).vals.length = pairsAt st o :=
        List.take_of_length_le hcur.length_pairs.le
      rw [hall] at htake
      rw [if_pos hlt]
      refine (hcur.seek_next hseen (Q := fun q t' ↦
        Runs (scan read hi fuel q (block n).vals.length (-1)) t' R) ?_ ?_).seq fun _ _ hq ↦ hq
      · intro hb
        unfold scan
        exact runs_pure (hend htake hb)
      · intro v zs c' n' t' hb hd hfile hseen'
        have hv : n.next = v := by rw [hcur.next_eq, hb, List.headD_cons]
        exact hnext htake v zs c' n' t' hb hd (hv ▸ hfile) hseen'
    · rw [if_neg hlt]
      exact hhere j (by omega) htake hdrop

end Start

end MqssdModel.BPlusTree.Scan
