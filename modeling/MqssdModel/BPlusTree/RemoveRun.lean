import MqssdModel.BPlusTree.LeafRemove

namespace MqssdModel.BPlusTree.RemoveRun

open Data.Arrays Data.Moves Data.Rows Data.Chain Data.TotalRun Machine Caching Routines Removal
  Checking LeafSpecs Views Shape Allocation Ordering Pending Splitting Search Steps Descent LeafLevel
  InsertCascade InsertSplit Siblings RemoveCascade Rebalance Neighbours Sides RemoveInner
  RemoveSides RemoveRight LeafRemove

/-- The search for `k` has ended at the leaf `o`, which has an entry for it. -/
structure Hit (cf : Config) (st : Store) (a : Row) (o : ℤ) (b : Row) (us : List Row) (d k : ℤ)
    (n : Node) (ks₁ ks₂ vs₁ vs₂ : List ℤ) (v : ℤ) : Prop where
  leaf : AtLeaf cf st a o b us d k n
  keys : (block n).keys = ks₁ ++ k :: ks₂
  vals : (block n).vals = vs₁ ++ v :: vs₂
  left_length : ks₁.length = vs₁.length
  right_length : ks₂.length = vs₂.length

variable {cf : Config} {t₀ t : Tree} {st : Store} {nc lc rc pc : Ptr} {n n₁ n' m pn : Node}
  {a b a' b' U U₁ U₂ : Row} {us : List Row} {o g x e p d k v key : ℤ} {cp : Content}
  {ks₁ ks₂ vs₁ vs₂ pk₁ pk₂ pv₁ pv₂ ks vs : List ℤ} {ropt lopt : List (Ptr × Node)}
  {lsib rsib : Option Ptr}

namespace Hit

variable (h : Hit cf st a o b us d k n ks₁ ks₂ vs₁ vs₂ v)

include h

theorem length : (block n).vals.length = ks₁.length + ks₂.length + 1 := by
  rw [h.vals, List.length_append, List.length_cons, h.left_length, h.right_length]
  omega

theorem isLeaf : Leaf n (ks₁.length + ks₂.length + 1) := h.length ▸ h.leaf.leaf

theorem cap : (ks₁.length + ks₂.length + 1 : ℕ) ≤ cf.maxEntries := h.length ▸ h.leaf.ok.cap

theorem half (hw : 1 < (a ++ Item.node o :: b).length) :
    (cf.maxEntries + 1) / 2 ≤ (ks₁.length + ks₂.length + 1 : ℕ) := h.length ▸ h.leaf.ok.half hw

theorem splice_keys : splice (block n).keys ks₁.length [] 1 = ks₁ ++ ks₂ := by
  rw [h.keys]
  exact splice_append ks₁ [] [k] ks₂

theorem splice_vals : splice (block n).vals ks₁.length [] 1 = vs₁ ++ vs₂ := by
  rw [h.vals, h.left_length]
  exact splice_append vs₁ [] [v] vs₂

theorem lengths : (ks₁ ++ ks₂).length = (vs₁ ++ vs₂).length := by
  rw [List.length_append, List.length_append, h.left_length, h.right_length]

theorem entries_eq : entries st (a ++ .node o :: b) =
    entries st a ++ ks₁.zip vs₁ ++ (k, v) :: (ks₂.zip vs₂ ++ entries st b) := by
  rw [h.leaf.entries_eq, h.keys, h.vals, List.zip_append h.left_length, List.zip_cons_cons]
  simp

theorem zip_eq : (ks₁ ++ ks₂).zip (vs₁ ++ vs₂) = ks₁.zip vs₁ ++ ks₂.zip vs₂ :=
  List.zip_append h.left_length

theorem removed {m₁ m₂ m : List (ℤ × ℤ)} (h₁ : entries st a = m₁) (h₂ : entries st b = m₂)
    (hm : m = m₁ ++ ((ks₁ ++ ks₂).zip (vs₁ ++ vs₂) ++ m₂)) :
    Removed k (entries st (a ++ .node o :: b)) m := by
  refine ⟨_, v, _, h.entries_eq, ?_⟩
  rw [hm, h.zip_eq, h₁, h₂]
  simp

/-- The marks without the key that goes. -/
theorem marks_sublist : (marks st a ++ (((ks₁ ++ ks₂).map fun x ↦ 2 * x + 1) ++ marks st b)).Sublist
    (marks st (a ++ Item.node o :: b)) := by
  rw [h.leaf.marks_eq, h.keys]
  refine (List.Sublist.refl _).append (List.Sublist.append ?_ (List.Sublist.refl _))
  exact (((List.sublist_cons_self k ks₂).append_left ks₁).map _)

theorem simpleRemove_run (hrep : Rep t st [(nc, n)]) (hone : 1 ≤ ks₁.length + ks₂.length)
    (hhalf : 1 < (a ++ Item.node o :: b).length →
      (cf.maxEntries + 1) / 2 ≤ (ks₁.length + ks₂.length : ℕ)) :
    Runs (do
      leafSimpleRemove cf nc ks₁.length
      nodeFlush (some nc)) t fun _ t' ↦ Reduced cf st.fileSize d k (entries st (a ++ .node o :: b)) t' := by
  have hlen := h.lengths
  have hcap := h.cap
  refine (leafSimpleRemove_run hrep h.isLeaf (by omega) hcap).seq ?_
  rintro _ t₁ ⟨n', h₁, hb⟩
  rw [h.splice_keys, h.splice_vals] at hb
  have hself : n'.self = o := (congrArg Block.self hb).trans h.leaf.self
  rw [List.length_append] at hlen
  refine h₁.flush.mono fun _ t₂ h₂ ↦ ⟨_, a ++ .node o :: b, us, h₂, ?_, ?_, longer_of_eq _ rfl⟩
  · refine h.leaf.good_write hself (congrArg Block.parent hb)
      ⟨congrArg Block.prev hb, congrArg Block.next hb⟩ ?_ ?_
    · refine leafOk_of_block hb h.leaf.leaf.type ?_ h.lengths ?_ ?_ fun hw ↦ ?_
      · omega
      · omega
      · omega
      · have := hhalf hw
        omega
    · rw [hb]
      exact h.leaf.good.ordered.sublist h.marks_sublist
  · rw [h.leaf.entries_write hself, hb]
    exact h.removed rfl rfl rfl

end Hit

/-- Another leaf, read into a cache. -/
theorem other_leaf (h : AtLeaf cf st a o b us d k n) {v : ℤ} (hv : v ∈ nodes a ++ nodes b)
    (hm : st.disk v = some (block m)) :
    LeafOk cf (a ++ .node o :: b) (Block.content (block m)) ∧ Leaf m (block m).vals.length ∧
      content st v = some (Block.content (block m)) := by
  obtain ⟨c, hc, hok⟩ := h.good.leaves.leaf v (h.others_ne hv).1
  have hc' : content st v = some (Block.content (block m)) := by
    rw [content, hm]
    rfl
  obtain rfl := Option.some.inj (hc.symm.trans hc')
  exact ⟨hok, Leaf.of_block hok.kind hok.count, hc⟩

section Sides

variable {c : Content}

theorem ordered_left (h : Hit cf st (a' ++ [.node g, .sep x]) o b us d k n ks₁ ks₂ vs₁ vs₂ v)
    (hc : content st g = some c) : (marks st a' ++ (((c.keys ++ (ks₁ ++ ks₂)).map fun x ↦ 2 * x + 1)
      ++ marks st b)).Pairwise (· < ·) := by
  refine h.leaf.good.ordered.sublist (List.Sublist.trans ?_ h.marks_sublist)
  rw [marks_append, marks_cons_node, marks_cons_sep, marks_nil, keysAt_eq hc]
  simp only [List.map_append, List.append_assoc, List.append_sublist_append_left]
  exact (List.nil_sublist _).append (List.Sublist.refl _)

theorem ordered_right (h : Hit cf st a o (.sep x :: .node e :: b') us d k n ks₁ ks₂ vs₁ vs₂ v)
    (hc : content st e = some c) : (marks st a ++ ((((ks₁ ++ ks₂) ++ c.keys).map fun x ↦ 2 * x + 1)
      ++ marks st b')).Pairwise (· < ·) := by
  refine h.leaf.good.ordered.sublist (List.Sublist.trans ?_ h.marks_sublist)
  rw [marks_cons_sep, marks_cons_node, keysAt_eq hc]
  simp only [List.map_append, List.append_assoc, List.append_sublist_append_left]
  exact List.sublist_cons_self _ _

theorem removed_left (h : Hit cf st (a' ++ [.node g, .sep x]) o b us d k n ks₁ ks₂ vs₁ vs₂ v)
    (hc : content st g = some c) {m : List (ℤ × ℤ)} (hm : m = entries st a' ++
      (c.keys.zip c.vals ++ ((ks₁ ++ ks₂).zip (vs₁ ++ vs₂) ++ entries st b))) :
    Removed k (entries st (a' ++ [.node g, .sep x] ++ .node o :: b)) m := by
  refine h.removed (show _ = entries st a' ++ c.keys.zip c.vals from ?_) rfl (by rw [hm]; simp)
  rw [entries_append, entries_cons_node, entries_cons_sep, entries_nil, pairsAt_eq hc,
    List.append_nil]

theorem removed_right (h : Hit cf st a o (.sep x :: .node e :: b') us d k n ks₁ ks₂ vs₁ vs₂ v)
    (hc : content st e = some c) {m : List (ℤ × ℤ)} (hm : m = entries st a ++
      ((ks₁ ++ ks₂).zip (vs₁ ++ vs₂) ++ (c.keys.zip c.vals ++ entries st b'))) :
    Removed k (entries st (a ++ .node o :: .sep x :: .node e :: b')) m := by
  refine h.removed rfl ?_ hm
  rw [entries_cons_sep, entries_cons_node, pairsAt_eq hc]

end Sides

section Left

variable
  (h : Hit cf st (a' ++ [.node g, .sep x]) o b ((U₁ ++ .node p :: U₂) :: us) d k n ks₁ ks₂ vs₁ vs₂ v)
  (hs : Spot cf st [] (a' ++ [.node g, .sep x]) o b U₁ p U₂ us cp (ks ++ [x]) pk₂ pv₁ pv₂ n key)
  (hpair : Pair cf st a' g x o b U₁ p U₂ cp ks pk₂ vs pv₂) (hcf : Sized cf)
  (hm : st.disk g = some (block m)) (hp : st.disk p = some (block pn))
  (hrn : Neighbour st n.next rsib ropt)
  (hrep : Rep t st ((nc, n) :: (lc, m) :: (pc, pn) :: ropt))

include h hs hpair hcf hm hp hrn hrep

theorem shiftLeft_run (hbig : m.children > (cf.maxEntries + 1) / 2) :
    Runs (do
      leafShiftFromLeft cf nc lc pc ks.length ks₁.length
      nodeFlush (some nc)
      nodeFlush (some lc)
      nodeFlush rsib
      nodeFlush (some pc)) t fun _ t' ↦
        Reduced cf st.fileSize d k (entries st (a' ++ [.node g, .sep x] ++ .node o :: b)) t' := by
  have hentries := hcf.entries
  have hcap := h.cap
  have hpcap := hs.cap_parent
  have hhalf := h.half (by simp; omega)
  obtain ⟨hok, hleaf, hcm⟩ := other_leaf h.leaf (v := g) (by simp) hm
  have hlen : (block m).keys.length = (block m).vals.length := hok.keys
  have hmcap : ((block m).vals.length : ℤ) ≤ cf.maxEntries := hok.cap
  have hcount := hleaf.children
  obtain ⟨mk, xk, hmk⟩ := (List.eq_nil_or_concat' (block m).keys).resolve_left
    (List.ne_nil_of_length_pos (by omega))
  obtain ⟨mv, y, hmv⟩ := (List.eq_nil_or_concat' (block m).vals).resolve_left
    (List.ne_nil_of_length_pos (by omega))
  have hvlen : (block m).vals.length = mv.length + 1 := by rw [hmv]; simp
  rw [hmk, List.length_append, List.length_singleton] at hlen
  rw [hvlen] at hleaf
  simp only [List.length_append, List.length_singleton] at hpcap
  refine (leafShiftFromLeft_run hrep h.isLeaf hleaf (hs.inner_parent hp) (by omega) (by omega)
    (by omega) hmk hmv (i := ks.length) (by simp; omega) (by simp; omega)).seq ?_
  rintro _ t₁ ⟨n', m', w', h₁, hn', hm', hw'⟩
  rw [h.splice_keys, h.splice_vals] at hn'
  have hn₁ := same_of_block h.leaf.disk h.leaf.self (m := n') (by rw [hn'])
  have hm₁ := same_of_block hm (hrep.self g _ hm) (m := m') (by rw [hm'])
  have hw₁ := same_of_block hp (hrep.self p _ hp) (m := w') (by rw [hw'])
  refine (flush_left_run h₁ hrn (by
      rw [← block_self, hn₁.self]
      exact hs.next_ne hcf (Or.inr (by simp))) (by
      rw [← block_self, hm₁.self]
      exact hs.next_ne hcf (Or.inr (by simp)))).mono fun _ t₂ h₂ ↦ ?_
  have hrow : a' ++ [.node g, .sep x] ++ .node o :: b = a' ++ .node g :: .sep x :: .node o :: b := by
    simp
  have hgood := h.leaf.good
  rw [hrow] at hgood
  obtain ⟨hshift, -⟩ := shifted_pair [] [] hgood.alloc (by simp) (by simp)
    hn₁ hm₁ hw₁ (Or.inl ⟨rfl, rfl⟩)
  have hcw : Block.content (block w') = { cp with keys := ks ++ xk :: pk₂ } := by
    rw [hw', hs.keys_parent hp, ← hs.content_parent hp, List.append_assoc, List.singleton_append,
      show splice (ks ++ x :: pk₂) ks.length [xk] 1 = ks ++ xk :: pk₂ from
        splice_append ks [xk] [x] pk₂]
    rfl
  rw [hcw] at hshift
  have hll := h.lengths
  simp only [List.length_append] at hll
  refine ⟨_, _, _, h₂, good_of_shifted hgood (shifted_symm hshift) hpair ?_ ?_ ?_, ?_,
    longer_of_eq _ (congrArg Header.fileSize hshift.header)⟩
  · exact leafOk_of_block hm' hok.kind (by omega) (by omega) (by omega) (by omega) fun _ ↦ by omega
  · exact leafOk_of_block hn' h.leaf.leaf.type (h.isLeaf.children.trans (by simp; omega))
      (by simp; omega) (by simp) (by simp; omega) fun _ ↦ by simp; omega
  · rw [hm', hn']
    refine pairwise_cut mk xk (ks₁ ++ ks₂) ?_ ?_
    · have ho := ordered_left h hcm
      simp only [Block.content, hmk] at ho
      simpa using ho
    · exact List.ne_nil_of_length_pos (by omega)
  · refine removed_left h hcm ?_
    refine (entries_shifted hgood (shifted_symm hshift)).trans ?_
    rw [hm', hn']
    simp only [Block.content, hmk, hmv]
    rw [List.zip_append (by omega : mk.length = mv.length)]
    simp

theorem mergeLeft_run {remove : Ptr → ℤ → M Unit} (hremove : Removes cf us remove)
    (hsmall : m.children ≤ (cf.maxEntries + 1) / 2) (hn : n.children ≤ (cf.maxEntries + 1) / 2) :
    Runs (do
      leafMergeIntoLeft cf nc lc ks₁.length
      nodeDelete nc (some lc) rsib
      remove pc ks.length) t fun _ t' ↦
        Reduced cf st.fileSize d k (entries st (a' ++ [.node g, .sep x] ++ .node o :: b)) t' := by
  have hcap := h.cap
  have hhalf := h.half (by simp; omega)
  obtain ⟨hok, hleaf, hcm⟩ := other_leaf h.leaf (v := g) (by simp) hm
  have hlen : (block m).keys.length = (block m).vals.length := hok.keys
  have hmhalf : (cf.maxEntries + 1) / 2 ≤ (block m).vals.length := hok.half (by simp; omega)
  have hone : 1 ≤ (block m).vals.length := hok.one
  have hcount := hleaf.children
  have hnc := h.isLeaf.children
  refine (leafMergeIntoLeft_run hrep h.isLeaf hleaf (by omega) hcap (by omega)).seq ?_
  rintro _ t₁ ⟨m', h₁, hm'⟩
  rw [h.splice_keys, h.splice_vals] at hm'
  have hm₁ := same_of_block hm (hrep.self g _ hm) (m := m') (by rw [hm'])
  have hq : n.self ≠ invalidOffset := h.leaf.self ▸ hs.row_ne_invalid hcf mem_nodes_middle
  have hperm : ((nc, n) :: (lc, m') :: (pc, pn) :: ropt).Perm
      ((nc, n) :: (lc, m') :: (ropt ++ [(pc, pn)])) :=
    ((List.perm_append_singleton _ _).symm.cons _).cons _
  refine (nodeDelete_run (h₁.perm hperm) hrn hq).seq fun _ t₂ h₂ ↦ ?_
  rw [h.leaf.self, show m'.self = g from hm₁.self] at h₂
  have hrow : a' ++ [.node g, .sep x] ++ .node o :: b = a' ++ .node g :: .sep x :: .node o :: b := by
    simp
  have hgood := h.leaf.good
  rw [hrow] at hgood
  have hmerged := merged_pair [] [] hgood.alloc (by simp) (by simp) hcf
    hgood.leaves.linked hm₁ hs.links_eq.2
  refine (merge_up [] hcf hremove hmerged hgood.upper hpair hgood.ordered.seps
    hgood.alloc (by simp) hp (hrep.self p _ hp) h₂).mono fun _ t₃ h₃ ↦ ?_
  have hll := h.lengths
  simp only [List.length_append] at hll
  obtain ⟨st', us', hrep', hgood', hent, hsize⟩ := good_of_merged hgood hmerged h₃
    (leafOk_of_block hm' hok.kind (by simp; omega) (by simp; omega) (by simp; omega)
      (by simp; omega) fun _ ↦ by simp; omega) (by
      rw [hm']
      exact ordered_left h hcm)
  refine ⟨st', _, us', hrep', hgood', removed_left h hcm ?_, hsize⟩
  rw [hent, hm']
  simp only [Block.content]
  rw [List.zip_append hlen, List.append_assoc]

end Left

section Right

variable
  (h : Hit cf st a o (.sep x :: .node e :: b') ((U₁ ++ .node p :: U₂) :: us) d k n ks₁ ks₂ vs₁ vs₂ v)
  (hs : Spot cf st [] a o (.sep x :: .node e :: b') U₁ p U₂ us cp pk₁ (x :: ks) pv₁ pv₂ n key)
  (hpair : Pair cf st a o x e b' U₁ p U₂ cp pk₁ ks pv₁ vs) (hcf : Sized cf)
  (hm : st.disk e = some (block m)) (hp : st.disk p = some (block pn))
  (hln : Neighbour st n.prev lsib lopt)
  (hn₁ : block n₁ = { block n with
    count := (ks₁.length + ks₂.length : ℕ)
    keys := ks₁ ++ ks₂
    vals := vs₁ ++ vs₂ })
  (hrep : Rep t st ((nc, n₁) :: (rc, m) :: (pc, pn) :: lopt))

include h hs hpair hcf hm hp hln hn₁ hrep

theorem shiftRight_run (hbig : m.children > (cf.maxEntries + 1) / 2) :
    Runs (do
      leafShiftFromRight cf nc rc pc pk₁.length
      nodeFlush (some nc)
      nodeFlush lsib
      nodeFlush (some rc)
      nodeFlush (some pc)) t fun _ t' ↦
        Reduced cf st.fileSize d k (entries st (a ++ .node o :: .sep x :: .node e :: b')) t' := by
  have hentries := hcf.entries
  have hcap := h.cap
  have hpcap := hs.cap_parent
  have hhalf := h.half (by simp; omega)
  obtain ⟨hok, hleaf, hcm⟩ := other_leaf h.leaf (v := e) (by simp) hm
  have hlen : (block m).keys.length = (block m).vals.length := hok.keys
  have hmcap : ((block m).vals.length : ℤ) ≤ cf.maxEntries := hok.cap
  have hcount := hleaf.children
  obtain ⟨y, mv, hmv⟩ := List.exists_cons_of_length_pos (show 0 < (block m).vals.length by omega)
  obtain ⟨xk, K, hmK⟩ := List.exists_cons_of_length_pos (show 0 < (block m).keys.length by omega)
  have hvlen : (block m).vals.length = mv.length + 1 := by rw [hmv]; rfl
  have hKlen : (block m).keys.length = K.length + 1 := by rw [hmK]; rfl
  obtain ⟨x', mk, rfl⟩ := List.exists_cons_of_length_pos (show 0 < K.length by omega)
  rw [List.length_cons] at hKlen
  have hin : Leaf n₁ (ks₁.length + ks₂.length) :=
    Leaf.of_block ((congrArg Block.kind hn₁).trans h.leaf.leaf.type) (congrArg Block.count hn₁)
  have hkeys : (block n₁).keys = ks₁ ++ ks₂ := congrArg Block.keys hn₁
  have hvals : (block n₁).vals = vs₁ ++ vs₂ := congrArg Block.vals hn₁
  rw [hvlen] at hleaf
  simp only [List.length_cons] at hpcap
  refine (leafShiftFromRight_run hrep hin hleaf (hs.inner_parent hp) (by omega) (by omega) hmK hmv
    (i := pk₁.length) (by simp) (by simp; omega)).seq ?_
  rintro _ t₁ ⟨n', m', w', h₁, hn', hm', hw'⟩
  rw [hkeys, hvals, hn₁] at hn'
  have hsame := same_of_block h.leaf.disk h.leaf.self (m := n') (by rw [hn'])
  have hsame' := same_of_block hm (hrep.self e _ hm) (m := m') (by rw [hm'])
  have hsame'' := same_of_block hp (hrep.self p _ hp) (m := w') (by rw [hw'])
  refine (flush_right_run h₁ hln (by
    rw [← block_self, hsame.self]
    exact hs.prev_ne hcf (Or.inr List.mem_cons_self))).mono fun _ t₂ h₂ ↦ ?_
  obtain ⟨hshift, -⟩ := shifted_pair [] [] h.leaf.good.alloc (by simp)
    (by simp) hsame hsame' hsame'' (Or.inr ⟨rfl, rfl⟩)
  have hcw : Block.content (block w') = { cp with keys := pk₁ ++ x' :: ks } := by
    rw [hw', hs.keys_parent hp, ← hs.content_parent hp,
      show splice (pk₁ ++ x :: ks) pk₁.length [x'] 1 = pk₁ ++ x' :: ks from
        splice_append pk₁ [x'] [x] ks]
    rfl
  rw [hcw] at hshift
  have hll := h.lengths
  simp only [List.length_append] at hll
  refine ⟨_, _, _, h₂, good_of_shifted h.leaf.good hshift hpair ?_ ?_ ?_, ?_,
    longer_of_eq _ (congrArg Header.fileSize hshift.header)⟩
  · exact leafOk_of_block hn' h.leaf.leaf.type (by simp; omega) (by simp; omega) (by simp; omega)
      (by simp; omega) fun _ ↦ by simp; omega
  · exact leafOk_of_block hm' hok.kind (by omega) (by simp; omega) (by omega) (by omega)
      fun _ ↦ by omega
  · rw [hm', hn']
    refine pairwise_cut (ks₁ ++ ks₂ ++ [xk]) x' mk ?_ (by simp)
    have ho := ordered_right h hcm
    simp only [Block.content, hmK] at ho
    simpa using ho
  · refine removed_right h hcm ?_
    refine (entries_shifted h.leaf.good hshift).trans ?_
    rw [hm', hn']
    simp only [Block.content, hmK, hmv]
    rw [List.zip_append h.lengths]
    simp

theorem mergeRight_run {remove : Ptr → ℤ → M Unit} (hremove : Removes cf us remove)
    (hsmall : m.children ≤ (cf.maxEntries + 1) / 2) (hn : n.children ≤ (cf.maxEntries + 1) / 2) :
    Runs (do
      leafMergeFromRight cf nc rc
      let rrsib ← nodeFetch (← node rc).next
      nodeDelete rc (some nc) rrsib
      nodeFlush lsib
      remove pc pk₁.length) t fun _ t' ↦
        Reduced cf st.fileSize d k (entries st (a ++ .node o :: .sep x :: .node e :: b')) t' := by
  have hcap := h.cap
  have hhalf := h.half (by simp; omega)
  obtain ⟨hok, hleaf, hcm⟩ := other_leaf h.leaf (v := e) (by simp) hm
  have hlen : (block m).keys.length = (block m).vals.length := hok.keys
  have hmhalf : (cf.maxEntries + 1) / 2 ≤ (block m).vals.length := hok.half (by simp; omega)
  have hone : 1 ≤ (block m).vals.length := hok.one
  have hcount := hleaf.children
  have hnc := h.isLeaf.children
  have hin : Leaf n₁ (ks₁.length + ks₂.length) :=
    Leaf.of_block ((congrArg Block.kind hn₁).trans h.leaf.leaf.type) (congrArg Block.count hn₁)
  have hkeys : (block n₁).keys = ks₁ ++ ks₂ := congrArg Block.keys hn₁
  have hvals : (block n₁).vals = vs₁ ++ vs₂ := congrArg Block.vals hn₁
  refine (leafMergeFromRight_run hrep hin hleaf (by omega)).seq ?_
  rintro _ t₁ ⟨n', h₁, hn'⟩
  rw [hkeys, hvals, hn₁] at hn'
  have hsame := same_of_block h.leaf.disk h.leaf.self (m := n') (by rw [hn'])
  refine deleteRight_bind [] hs hm hrep.self hcf hln hsame.self (hrep.self p _ hp)
    (by simp) h₁ fun t₂ h₂ ↦ ?_
  have hgood := h.leaf.good
  have hmerged := merged_pair [] [] hgood.alloc (by simp) (by simp) hcf
    hgood.leaves.linked hsame (next_right hs hm)
  refine (merge_up [] hcf hremove hmerged hgood.upper hpair hgood.ordered.seps
    hgood.alloc (by simp) hp (hrep.self p _ hp) h₂).mono fun _ t₃ h₃ ↦ ?_
  have hll := h.lengths
  simp only [List.length_append] at hll
  obtain ⟨st', us', hrep', hgood', hent, hsize⟩ := good_of_merged hgood hmerged h₃
    (leafOk_of_block hn' h.leaf.leaf.type (by simp; omega) (by simp; omega) (by simp; omega)
      (by simp; omega) fun _ ↦ by simp; omega) (by
      rw [hn']
      exact ordered_right h hcm)
  refine ⟨st', _, us', hrep', hgood', removed_right h hcm ?_, hsize⟩
  rw [hent, hn']
  simp only [Block.content]
  rw [List.zip_append h.lengths, List.append_assoc]

end Right

section Run

/-- The last entry has gone. -/
def Emptied (cf : Config) (size k : ℤ) (m : List (ℤ × ℤ)) (t : Tree) : Prop :=
  (∃ v, m = [(k, v)]) ∧ ∃ st, Rep t st [] ∧ st.root = invalidOffset ∧ st.level = 0 ∧
    Alloc cf st [] ∧ Longer cf 0 size st.fileSize

/-- What `leaf_remove` comes to. -/
def Remove (cf : Config) (t₀ : Tree) (d k : ℤ) (m : List (ℤ × ℤ)) (x : ℤ) (t : Tree) : Prop :=
  x = -1 ∧ k ∉ m.map Prod.fst ∧ Still t₀ t ∨
    x = 0 ∧ (Reduced cf t₀.fileSize d k m t ∨ Emptied cf t₀.fileSize k m t)

theorem reduced_run {size : ℤ} (hsize : size = t₀.fileSize) {m : List (ℤ × ℤ)} {f : M Unit}
    (h : Runs f t fun _ t' ↦ Reduced cf size d k m t') :
    Runs (f >>= fun _ ↦ pure (0 : ℤ)) t (Remove cf t₀ d k m) :=
  h.seq fun _ _ hr ↦ runs_pure (Or.inr ⟨rfl, Or.inl (hsize ▸ hr)⟩)

/-- The root is a leaf. -/
theorem root_leaf (h : AtLeaf cf st a o b [] d k n) :
    a = [] ∧ b = [] ∧ n.parent = invalidOffset := by
  obtain ⟨hw, hpar⟩ := h.good.upper
  have hlen := congrArg List.length hw
  rw [List.length_append, List.length_cons, List.length_singleton] at hlen
  obtain rfl := List.eq_nil_of_length_eq_zero (show a.length = 0 by omega)
  obtain rfl := List.eq_nil_of_length_eq_zero (show b.length = 0 by omega)
  rw [List.nil_append, List.singleton_inj, Item.node.injEq] at hw
  rw [← hw, h.par_eq] at hpar
  exact ⟨rfl, rfl, Option.some.inj hpar⟩

theorem emptied_run (h : Hit cf st a o b [] d k n ks₁ ks₂ vs₁ vs₂ v) (hcf : Sized cf)
    (hrep : Rep t st [(nc, n)]) (hone : ks₁.length + ks₂.length = 0) :
    Runs (do
      assert (k = n.key 0)
      modify fun t ↦ { t with root := invalidOffset }
      modify fun t ↦ { t with level := 0 }
      nodeDelete nc none none) t fun _ t' ↦ Emptied cf st.fileSize k (entries st (a ++ .node o :: b)) t' := by
  obtain ⟨rfl, rfl, -⟩ := root_leaf h.leaf
  obtain rfl := List.eq_nil_of_length_eq_zero (show ks₁.length = 0 by omega)
  obtain rfl := List.eq_nil_of_length_eq_zero (show ks₂.length = 0 by omega)
  obtain rfl := List.eq_nil_of_length_eq_zero h.left_length.symm
  obtain rfl := List.eq_nil_of_length_eq_zero h.right_length.symm
  have hkeys := h.keys
  rw [h.isLeaf.block_eq] at hkeys
  have hkey : n.key 0 = k := (front_cons_inj hkeys).1
  have hq : n.self ≠ invalidOffset := h.leaf.self ▸ h.leaf.ne_invalid hcf mem_nodes_middle
  refine (assert_run (by simp [hkey])).seq ?_
  rintro _ _ rfl
  refine (hrep.modify { st with root := invalidOffset } ⟨rfl, rfl, rfl, rfl⟩
    ⟨rfl, hrep.level, hrep.fileSize, hrep.free, rfl⟩).seq fun _ t₁ h₁ ↦ ?_
  refine (h₁.modify { st with root := invalidOffset, level := 0 } ⟨rfl, rfl, rfl, rfl⟩
    ⟨h₁.root, rfl, h₁.fileSize, h₁.free, rfl⟩).seq fun _ t₂ h₂ ↦ ?_
  refine (release_run h₂ hq).mono fun _ t₃ h₃ ↦ ⟨⟨v, ?_⟩, _, h₃, rfl, rfl, ?_,
    longer_of_eq 0 rfl⟩
  · rw [h.entries_eq]
    rfl
  · rw [h.leaf.self]
    exact (Alloc.release (o := o) h.leaf.good.alloc).congr rfl rfl

/-- A leaf with a parent. -/
theorem hit_cons_run {fuel : ℕ} (h : Hit cf st a o b (U :: us) d k n ks₁ ks₂ vs₁ vs₂ v)
    (hcf : Sized cf) (hfuel : us.length < fuel) (hrep : Rep t st [(nc, n)])
    (hsmall : n.children ≤ (cf.maxEntries + 1) / 2) (hsize : st.fileSize = t₀.fileSize) :
    Runs (do
      let lsib ← nodeFetch n.prev
      let rsib ← nodeFetch n.next
      let parent ← deref (← nodeFetch n.parent)
      let i := parentKeyIndex (← node parent) (← load cf keyField nc 0)
      let s ← siblingSelect lsib rsib parent i
      checkSlot nc parent lsib rsib i s
      match s with
      | .left =>
        let left ← deref lsib
        if (← node left).children > (cf.maxEntries + 1) / 2 then
          leafShiftFromLeft cf nc left parent i ks₁.length
          nodeFlush (some nc)
          nodeFlush lsib
          nodeFlush rsib
          nodeFlush (some parent)
        else
          leafMergeIntoLeft cf nc left ks₁.length
          nodeDelete nc lsib rsib
          nonLeafRemoveChecked cf fuel parent i
      | .right =>
        leafSimpleRemove cf nc ks₁.length
        let right ← deref rsib
        if (← node right).children > (cf.maxEntries + 1) / 2 then
          leafShiftFromRight cf nc right parent (i + 1)
          nodeFlush (some nc)
          nodeFlush lsib
          nodeFlush rsib
          nodeFlush (some parent)
        else
          leafMergeFromRight cf nc right
          let rrsib ← nodeFetch (← node right).next
          nodeDelete right (some nc) rrsib
          nodeFlush lsib
          nonLeafRemoveChecked cf fuel parent (i + 1)
      return (0 : ℤ)) t (Remove cf t₀ d k (entries st (a ++ .node o :: b))) := by
  obtain ⟨U₁, p, U₂, cp, pk₁, pk₂, pv₁, pv₂, rfl, hs⟩ := spot_of_leaf h.leaf
  have hentries := hcf.entries
  have hcap := h.cap
  have hremove : Removes cf us (nonLeafRemoveChecked cf fuel) := removes hcf hfuel
  have hkey : keyField.cap cf n = cf.maxEntries := by
    simp [keyField, Machine.isLeaf, h.isLeaf.type]
  refine choose_bind hs hcf hrep (by omega) ?_ ?_
  · rintro t₁ lc rsib pc m pn ropt a' g x ks vs rfl rfl hpair hprev hm hp hidx hrn h₁
    rw [hidx]
    refine deref_bind (h₁.node_bind mem₂ ?_)
    by_cases hbig : m.children > (cf.maxEntries + 1) / 2
    · rw [if_pos hbig]
      have hrun := reduced_run hsize (shiftLeft_run h hs hpair hcf hm hp hrn h₁ hbig)
      simpa only [bind_assoc] using hrun
    · rw [if_neg hbig]
      have hrun := reduced_run hsize
        (mergeLeft_run h hs hpair hcf hm hp hrn h₁ hremove (by omega) hsmall)
      simpa only [bind_assoc] using hrun
  · rintro t₁ rc lsib pc m pn lopt b' x e ks vs rfl rfl hpair hm hp hidx hln h₁
    refine (leafSimpleRemove_run h₁ h.isLeaf (by omega) hcap).seq ?_
    rintro _ t₂ ⟨n₁, h₂, hn₁⟩
    rw [h.splice_keys, h.splice_vals] at hn₁
    refine deref_bind (h₂.node_bind mem₂ ?_)
    rw [hidx]
    by_cases hbig : m.children > (cf.maxEntries + 1) / 2
    · rw [if_pos hbig]
      have hrun := reduced_run hsize (shiftRight_run h hs hpair hcf hm hp hln hn₁ h₂ hbig)
      simpa only [bind_assoc] using hrun
    · rw [if_neg hbig]
      have hrun := reduced_run hsize
        (mergeRight_run h hs hpair hcf hm hp hln hn₁ h₂ hremove (by omega) hsmall)
      simpa only [bind_assoc] using hrun

theorem leafRemove_run {fuel : ℕ} (h : AtLeaf cf st a o b us d k n) (hcf : Sized cf)
    (hfuel : us.length ≤ fuel) (hseen : Seen t₀ t st nc n) :
    Runs (leafRemoveChecked cf fuel nc k) t (Remove cf t₀ d k (entries st (a ++ .node o :: b))) := by
  have hcount : 0 ≤ keyCount n := by
    rw [h.keyCount_eq]
    omega
  refine hseen.node_bind ?_
  by_cases hk : k ∈ (block n).keys
  · obtain ⟨ks₁, ks₂, vs₁, v, vs₂, hkeys, hvals, hlen, hlen', h₁, h₂⟩ := h.exists_entry hk
    have hhit : Hit cf st a o b us d k n ks₁ ks₂ vs₁ vs₂ v := ⟨h, hkeys, hvals, hlen, hlen'⟩
    have hchildren := hhit.isLeaf.children
    have hcap := hhit.cap
    have hentries := hcf.entries
    have hsize := hseen.fileSize
    rw [search_found hcount hkeys h₁ h₂]
    dsimp only
    rw [if_neg (by omega)]
    refine hseen.claim fun t₁ hrep ↦ ?_
    cases us with
    | nil =>
      obtain ⟨ha, hb, hpar⟩ := root_leaf h
      rw [if_pos hpar]
      by_cases hone : n.children = 1
      · rw [if_pos hone]
        have hrun := (emptied_run hhit hcf hrep (by omega)).seq fun _ t₂ he ↦
          runs_pure (a := (0 : ℤ)) (show Remove cf t₀ d k _ 0 t₂ from
            Or.inr ⟨rfl, Or.inr (hsize ▸ he)⟩)
        simpa only [bind_assoc] using hrun
      · rw [if_neg hone]
        have hrun := reduced_run hsize (hhit.simpleRemove_run hrep (by omega) fun hw ↦ by
          simp [ha, hb] at hw)
        simpa only [bind_assoc] using hrun
    | cons U us =>
      obtain ⟨U₁, p, U₂, cp, pk₁, pk₂, pv₁, pv₂, rfl, hs⟩ := spot_of_leaf h
      rw [if_neg (hs.parent_eq ▸ hs.parent_ne hcf)]
      by_cases hsmall : n.children ≤ (cf.maxEntries + 1) / 2
      · rw [if_pos hsmall]
        exact hit_cons_run hhit hcf hfuel hrep hsmall hsize
      · rw [if_neg hsmall]
        have hrun := reduced_run hsize (hhit.simpleRemove_run hrep (by omega) fun _ ↦ by omega)
        simpa only [bind_assoc] using hrun
  · obtain ⟨ks₁, ks₂, vs₁, vs₂, hkeys, hvals, hlen, hlen', h₁, h₂⟩ := h.exists_gap hk
    rw [search_absent hcount hkeys h₁ h₂]
    dsimp only
    rw [if_pos (by omega)]
    exact runs_pure (Or.inl ⟨rfl, fun hm ↦ hk (h.mem_entries.mp hm), hseen.still⟩)

end Run

end MqssdModel.BPlusTree.RemoveRun
