import MqssdModel.BPlusTree.LeafInsert

namespace MqssdModel.BPlusTree.InsertRun

open Data.Arrays Data.Rows Data.Chain Data.TotalRun Machine Caching Routines Insertion InnerSpecs
  LeafSpecs Views Shape Allocation Ordering Pending Splitting Search Steps Descent LeafLevel
  InsertCascade InsertSplit LeafInsert

variable {cf : Config} {t₀ t : Tree} {st : Store} {nc mc : Ptr} {n m n' m' : Node}
  {a b : Row} {o d k v sk : ℤ} {us : List Row} {ks₁ ks₂ vs₁ vs₂ : List ℤ} {sp fuel : ℕ}

section Split

variable (h : AtLeaf cf st a o b us d k n) (hcf : Sized cf)

include h hcf

theorem fetchable_row {v : ℤ} (hv : v ∈ nodes a ++ nodes b) : Fetchable st [(nc, n)] v := by
  obtain ⟨hm, hne⟩ := h.others_ne hv
  refine ⟨h.present hcf hm, fun he ↦ h.fresh_notMem.1 (he ▸ hm), ?_⟩
  simp only [away_cons, away_nil, and_true, h.self]
  exact hne.symm

theorem beside_prev : Beside st [(nc, n)] n.prev := by
  rw [h.links_eq.1]
  exact getLastD_mem.symm.imp_right fun hm ↦ fetchable_row h hcf (List.mem_append_left _ hm)

theorem beside_next : Beside st [(nc, n)] n.next := by
  rw [h.links_eq.2]
  exact headD_mem.symm.imp_right fun hm ↦ fetchable_row h hcf (List.mem_append_right _ hm)

omit hcf in
theorem away_fresh : Away [(nc, n)] st.fresh := by
  simp only [away_cons, away_nil, and_true, h.self]
  exact fun he ↦ h.fresh_notMem.1 (he ▸ mem_nodes_middle)

theorem nodup_fresh : (st.fresh :: (nodes a ++ o :: nodes b)).Nodup := by
  refine List.nodup_cons.mpr ⟨?_, h.nodup⟩
  have hf := h.fresh_notMem.1
  rwa [nodes_append, nodes_cons_node] at hf

theorem invalid_notMem : invalidOffset ∉ nodes a ++ o :: nodes b := fun hm ↦
  h.ne_invalid hcf (by rwa [nodes_append, nodes_cons_node]) rfl

variable (hgap : (block n).keys = ks₁ ++ ks₂ ∧ (block n).vals = vs₁ ++ vs₂ ∧
    ks₁.length = vs₁.length ∧ (∀ x ∈ ks₁, x < k) ∧ ∀ x ∈ ks₂, k < x)
  (hfull : (block n).vals.length = cf.maxEntries)
  (hsp : sp = ((block n).vals.length + 1) / 2)

include hgap hfull hsp

theorem leafSplit_left
    (hm : block m' = ⟨st.fresh, invalidOffset, n.prev, n.self, .leaf, sp,
      (ks₁ ++ k :: ks₂).take sp, (vs₁ ++ v :: vs₂).take sp⟩)
    (hn : block n' = { block n with
      prev := st.fresh
      count := ((block n).vals.length + 1 - sp : ℕ)
      keys := (ks₁ ++ k :: ks₂).drop sp
      vals := (vs₁ ++ v :: vs₂).drop sp }) (hkey : (block n').keys.head? = some sk) :
    LeafSplit cf st (setNext (st.alloc cf) n.prev st.fresh) m' n' a o b us d k n (ks₁ ++ k :: ks₂)
      (vs₁ ++ v :: vs₂) sp sk := by
  obtain ⟨hkeys, hvals, hlen, h₁, h₂⟩ := hgap
  have hl := h.length
  rw [hkeys, hvals, List.length_append, List.length_append] at hl
  rw [hvals, List.length_append] at hfull hsp hn
  have hms : m'.self = st.fresh := congrArg Block.self hm
  have hns : n'.self = o := (congrArg Block.self hn).trans h.self
  have hnp : n'.parent = n.parent := congrArg Block.parent hn
  have hof : o ≠ st.fresh := fun he ↦ h.fresh_notMem.1 (he ▸ mem_nodes_middle)
  refine ⟨h, by simp, Or.inr ⟨hms, hns, congrArg Block.parent hm⟩, ?_, ?_, fun v ho hf ↦ ?_,
    fun v hf ↦ ?_, fun v hv hf hi ↦ ?_, ?_, ?_, ?_, ?_, ?_, ?_, marks_gap h hkeys h₁ h₂⟩
  · rw [hm]
    rfl
  · rw [hn, Block.content]
    dsimp only
    rw [show (ks₁ ++ k :: ks₂).length = vs₁.length + vs₂.length + 1 by simp; omega]
    congr 1
    exact h.leaf.type
  · rw [content_pending, hns, hms, if_neg ho, if_neg hf, content_setNext, content_alloc]
  · rw [par_pending, hns, hms]
    by_cases ho : v = o
    · rw [if_pos ho, ho, hnp, h.par_eq]
    · rw [if_neg ho, if_neg hf, par_setNext, par_alloc]
  · have hvo : v ≠ o := fun he ↦ hv (he ▸ mem_nodes_middle)
    rw [disk_pending (hms ▸ hf) (hns ▸ hvo), disk_setNext, alloc_disk]
    rw [h.links_eq.1]
    exact ne_getLastD (fun hm ↦ hv (by simp [hm])) hi
  · rw [hms, hns]
    refine linked_left h.linked (nodup_fresh h hcf) (invalid_notMem h hcf) ?_ ?_ fun v ho hf hi ↦ ?_
    · rw [links_pending, hns, hms, if_neg hof.symm, if_pos rfl, ← h.links_eq.1, ← h.self]
      exact congrArg some (Prod.ext (congrArg Block.prev hm) (congrArg Block.next hm))
    · rw [links_pending, hns, if_pos rfl, ← h.links_eq.2]
      exact congrArg some (Prod.ext (congrArg Block.prev hn) (congrArg Block.next hn))
    · rw [links_pending, hns, hms, if_neg ho, if_neg hf, links_setNext hi, links_alloc,
        ← h.links_eq.1]
  · refine isSome_of_content ((content_setNext.trans content_alloc).trans h.content_eq)
  · rw [← hkey, hn]
  · simp only [List.length_append, List.length_cons]
    omega
  · simp only [List.length_append, List.length_cons]
    omega
  · simp only [List.length_append, List.length_cons]
    omega

theorem leafSplit_right
    (hn : block n' = { block n with
      next := st.fresh
      count := sp
      keys := (ks₁ ++ k :: ks₂).take sp
      vals := (vs₁ ++ v :: vs₂).take sp })
    (hm : block m' = ⟨st.fresh, invalidOffset, n.self, n.next, .leaf,
      ((block n).vals.length + 1 - sp : ℕ), (ks₁ ++ k :: ks₂).drop sp,
      (vs₁ ++ v :: vs₂).drop sp⟩) (hkey : (block m').keys.head? = some sk) :
    LeafSplit cf st (setPrev (st.alloc cf) n.next st.fresh) n' m' a o b us d k n (ks₁ ++ k :: ks₂)
      (vs₁ ++ v :: vs₂) sp sk := by
  obtain ⟨hkeys, hvals, hlen, h₁, h₂⟩ := hgap
  have hl := h.length
  rw [hkeys, hvals, List.length_append, List.length_append] at hl
  rw [hvals, List.length_append] at hfull hsp hm
  have hms : m'.self = st.fresh := congrArg Block.self hm
  have hns : n'.self = o := (congrArg Block.self hn).trans h.self
  have hnp : n'.parent = n.parent := congrArg Block.parent hn
  have hof : o ≠ st.fresh := fun he ↦ h.fresh_notMem.1 (he ▸ mem_nodes_middle)
  refine ⟨h, by simp, Or.inl ⟨hns, hms, congrArg Block.parent hm⟩, ?_, ?_, fun v ho hf ↦ ?_,
    fun v hf ↦ ?_, fun v hv hf hi ↦ ?_, ?_, ?_, ?_, ?_, ?_, ?_, marks_gap h hkeys h₁ h₂⟩
  · rw [hn, Block.content]
    congr 1
    exact h.leaf.type
  · rw [hm, Block.content]
    dsimp only
    rw [show (ks₁ ++ k :: ks₂).length = vs₁.length + vs₂.length + 1 by simp; omega]
  · rw [content_pending, hns, hms, if_neg hf, if_neg ho, content_setPrev, content_alloc]
  · rw [par_pending, hns, hms, if_neg hf]
    by_cases ho : v = o
    · rw [if_pos ho, ho, hnp, h.par_eq]
    · rw [if_neg ho, par_setPrev, par_alloc]
  · have hvo : v ≠ o := fun he ↦ hv (he ▸ mem_nodes_middle)
    rw [disk_pending (hns ▸ hvo) (hms ▸ hf), disk_setPrev, alloc_disk]
    rw [h.links_eq.2]
    exact ne_headD (fun hm ↦ hv (by simp [hm])) hi
  · rw [hms, hns]
    refine linked_right h.linked (nodup_fresh h hcf) (invalid_notMem h hcf) ?_ ?_
      fun v ho hf hi ↦ ?_
    · rw [links_pending, hns, hms, if_neg hof, if_pos rfl, ← h.links_eq.1]
      exact congrArg some (Prod.ext (congrArg Block.prev hn) (congrArg Block.next hn))
    · rw [links_pending, hms, if_pos rfl, ← h.links_eq.2, ← h.self]
      exact congrArg some (Prod.ext (congrArg Block.prev hm) (congrArg Block.next hm))
    · rw [links_pending, hns, hms, if_neg hf, if_neg ho, links_setPrev hi, links_alloc,
        ← h.links_eq.2]
  · refine isSome_of_content ((content_setPrev.trans content_alloc).trans h.content_eq)
  · rw [← hkey, hm]
  · simp only [List.length_append, List.length_cons]
    omega
  · simp only [List.length_append, List.length_cons]
    omega
  · simp only [List.length_append, List.length_cons]
    omega

theorem splitLeft_run (hfuel : us.length < fuel) (hrep : Rep t st [(mc, m), (nc, n)])
    (hnew : New .leaf m) (hp : ks₁.length < sp) :
    Runs (do
      let splitKey ← leafSplitLeft cf nc mc k v ks₁.length
      parentNodeBuild cf fuel mc nc splitKey) t fun x t' ↦
        x = 0 ∧ Extended cf st.fileSize d k v (entries st (a ++ .node o :: b)) t' := by
  refine (leafSplitLeft_run hrep (Nat.zero_le _) (away_fresh h) (beside_prev h hcf) h.leaf hnew
    hfull hsp hp).seq ?_
  rintro sk t₁ ⟨n', m', h₁, hm, hn, hkey⟩
  obtain ⟨hkeys, hvals, hlen, -, -⟩ := id hgap
  have hK : splice (block n).keys ks₁.length [k] 0 = ks₁ ++ k :: ks₂ := by
    rw [hkeys]
    exact splice_append ks₁ [k] [] ks₂
  have hV : splice (block n).vals ks₁.length [v] 0 = vs₁ ++ v :: vs₂ := by
    rw [hvals, hlen]
    exact splice_append vs₁ [v] [] vs₂
  rw [hK, hV] at hm hn
  have hsplit := leafSplit_left h hcf hgap hfull hsp hm hn hkey
  refine (builds hcf hfuel h₁.swap (hsplit.pend hcf)).mono fun x t' ⟨hx, hgrown⟩ ↦ ⟨hx, ?_⟩
  exact hsplit.extended hcf hgrown (inserted_gap h hkeys hvals hlen)

theorem splitRight_run (hfuel : us.length < fuel) (hrep : Rep t st [(mc, m), (nc, n)])
    (hnew : New .leaf m) (hp : sp ≤ ks₁.length) :
    Runs (do
      let splitKey ← leafSplitRight cf nc mc k v ks₁.length
      parentNodeBuild cf fuel nc mc splitKey) t fun x t' ↦
        x = 0 ∧ Extended cf st.fileSize d k v (entries st (a ++ .node o :: b)) t' := by
  obtain ⟨hkeys, hvals, hlen, -, -⟩ := id hgap
  have hle : ks₁.length ≤ (block n).vals.length := by
    rw [hvals, List.length_append]
    omega
  have hentries := hcf.entries
  refine (leafSplitRight_run hrep (Nat.zero_le _) (away_fresh h) (beside_next h hcf) h.leaf hnew
    hfull hsp hp hle (by omega)).seq ?_
  rintro sk t₁ ⟨n', m', h₁, hn, hm, hkey⟩
  have hK : splice (block n).keys ks₁.length [k] 0 = ks₁ ++ k :: ks₂ := by
    rw [hkeys]
    exact splice_append ks₁ [k] [] ks₂
  have hV : splice (block n).vals ks₁.length [v] 0 = vs₁ ++ v :: vs₂ := by
    rw [hvals, hlen]
    exact splice_append vs₁ [v] [] vs₂
  rw [hK, hV] at hm hn
  have hsplit := leafSplit_right h hcf hgap hfull hsp hn hm hkey
  refine (builds hcf hfuel h₁ (hsplit.pend hcf)).mono fun x t' ⟨hx, hgrown⟩ ↦ ⟨hx, ?_⟩
  exact hsplit.extended hcf hgrown (inserted_gap h hkeys hvals hlen)

end Split

/-- What `leaf_insert` comes to. -/
def Insert (cf : Config) (t₀ : Tree) (d k v : ℤ) (m : List (ℤ × ℤ)) (x : ℤ) (t : Tree) : Prop :=
  x = -1 ∧ k ∈ m.map Prod.fst ∧ Still t₀ t ∨
    x = 0 ∧ k ∉ m.map Prod.fst ∧ Extended cf t₀.fileSize d k v m t

theorem leafInsert_run (h : AtLeaf cf st a o b us d k n) (hcf : Sized cf)
    (hfuel : us.length < fuel) (hseen : Seen t₀ t st nc n) :
    Runs (leafInsert cf fuel nc k v) t (Insert cf t₀ d k v (entries st (a ++ .node o :: b))) := by
  have hcount : 0 ≤ keyCount n := by
    rw [h.keyCount_eq]
    omega
  refine hseen.node_bind ?_
  by_cases hk : k ∈ (block n).keys
  · obtain ⟨ks₁, ks₂, -, -, -, hkeys, -, -, -, h₁, h₂⟩ := h.exists_entry hk
    rw [search_found hcount hkeys h₁ h₂]
    dsimp only
    rw [if_pos (by omega)]
    exact runs_pure (Or.inl ⟨rfl, h.mem_entries.mpr hk, hseen.still⟩)
  · obtain ⟨ks₁, ks₂, vs₁, vs₂, hkeys, hvals, hlen, hlen', h₁, h₂⟩ := h.exists_gap hk
    rw [search_absent hcount hkeys h₁ h₂]
    dsimp only
    rw [if_neg (by omega), show -(-(ks₁.length : ℤ) - 1) - 1 = ks₁.length by omega]
    have hpost : ∀ x t', x = 0 ∧ Extended cf st.fileSize d k v (entries st (a ++ .node o :: b)) t' →
        Insert cf t₀ d k v (entries st (a ++ .node o :: b)) x t' := fun x t' ⟨hx, he⟩ ↦
      Or.inr ⟨hx, fun hm ↦ hk (h.mem_entries.mp hm), hseen.fileSize ▸ he⟩
    refine hseen.claim fun t₁ h₁' ↦ ?_
    refine h₁'.node_bind mem₁ ?_
    rw [h.leaf.children]
    by_cases hfull : ((block n).vals.length : ℤ) = cf.maxEntries
    · rw [if_pos hfull]
      obtain ⟨sp, hsp⟩ : ∃ sp : ℕ, sp = ((block n).vals.length + 1) / 2 := ⟨_, rfl⟩
      rw [show (cf.maxEntries + 1) / 2 = sp by omega]
      refine (h₁'.leafNew (by simp)).seq fun mc t₂ ⟨m, h₂', hm⟩ ↦ ?_
      have hgap := And.intro hkeys (And.intro hvals (And.intro hlen (And.intro h₁ h₂)))
      by_cases hp : ks₁.length < sp
      · rw [if_pos (by omega)]
        exact (splitLeft_run h hcf hgap hfull hsp hfuel h₂' hm hp).mono hpost
      · rw [if_neg (by omega)]
        exact (splitRight_run h hcf hgap hfull hsp hfuel h₂' hm (by omega)).mono hpost
    · rw [if_neg hfull]
      have hcap := h.ok.cap
      have hlt : ((block n).vals.length : ℤ) < cf.maxEntries := lt_of_le_of_ne hcap hfull
      exact (simpleInsert_run h hkeys hvals hlen h₁ h₂ rfl hlt h₁').mono hpost

/-- The store with the next block as a leaf with one entry that is the root. -/
def planted (cf : Config) (st : Store) (k v : ℤ) : Store :=
  { st.alloc cf with root := st.fresh, level := 1 }.write
    ⟨st.fresh, invalidOffset, invalidOffset, invalidOffset, .leaf, (1 : ℕ), [k], [v]⟩

theorem newRoot_run (hcf : Sized cf) (h : Rep t st []) : Runs (newRoot cf k v) t fun x t' ↦
    x = 0 ∧ Rep t' (planted cf st k v) [] := by
  have hentries := hcf.entries
  refine (h.leafNew (by simp)).seq fun c t₁ ⟨m, h₁, hm⟩ ↦ ?_
  obtain ⟨s', q', l', r', _, x', a', b', u'⟩ := m
  obtain ⟨rfl, rfl, rfl, rfl, rfl, rfl⟩ := hm
  refine (Leaf.storeKey h₁ (by omega)).seq fun _ t₂ h₂ ↦ ?_
  refine (Leaf.storeData h₂ (by omega)).seq fun _ t₃ h₃ ↦ ?_
  refine (Leaf.setChildren h₃ rfl).seq fun _ t₄ h₄ ↦ ?_
  refine (h₄.append away_nil).seq ?_
  rintro _ t₅ ⟨rfl, h₅⟩
  refine (h₅.modify { st.alloc cf with root := st.fresh } ⟨rfl, rfl, rfl, rfl⟩
    ⟨rfl, h₅.level, h₅.fileSize, h₅.free, rfl⟩).seq fun _ t₆ h₆ ↦ ?_
  refine (h₆.modify { st.alloc cf with root := st.fresh, level := 1 } ⟨rfl, rfl, rfl, rfl⟩
    ⟨h₆.root, rfl, h₆.fileSize, h₆.free, rfl⟩).seq fun _ t₇ h₇ ↦ ?_
  refine h₇.flush.seq fun _ t₈ h₈ ↦ runs_pure ⟨rfl, ?_⟩
  have hblock : block ⟨st.fresh, invalidOffset, invalidOffset, invalidOffset, .leaf, 1,
      Function.update a' 0 k, Function.update b' 0 v, u'⟩ =
      ⟨st.fresh, invalidOffset, invalidOffset, invalidOffset, .leaf, (1 : ℕ), [k], [v]⟩ := by
    rw [Leaf.block_eq (k := 1) ⟨rfl, rfl⟩]
    simp [front]
  rw [planted, ← hblock]
  exact h₈

theorem good_planted (hcf : Sized cf) (h : Alloc cf st []) :
    Good cf (planted cf st k v) [.node st.fresh] [] 1 ∧
      entries (planted cf st k v) [.node st.fresh] = [(k, v)] := by
  have hentries := hcf.entries
  have hc : content (planted cf st k v) st.fresh = some ⟨.leaf, (1 : ℕ), [k], [v]⟩ := by
    rw [planted, content_write, if_pos rfl]
    rfl
  refine ⟨⟨⟨rfl, ?_⟩, ⟨fun o ho ↦ ?_, ?_, trivial⟩, ?_, ?_, rfl⟩, ?_⟩
  · change par (planted cf st k v) st.fresh = _
    rw [planted, par_write, if_pos rfl]
  · obtain rfl : o = st.fresh := by simpa using ho
    refine ⟨_, hc, rfl, rfl, rfl, le_rfl, ?_, by simp⟩
    simp only [List.length_singleton]
    omega
  · rw [planted, links_write, if_pos rfl]
    rfl
  · rw [Ordered, marks_cons_node, keysAt_eq hc]
    simp
  · exact (h.alloc hcf).congr rfl rfl
  · rw [entries_cons_node, pairsAt_eq hc]
    rfl

end MqssdModel.BPlusTree.InsertRun
