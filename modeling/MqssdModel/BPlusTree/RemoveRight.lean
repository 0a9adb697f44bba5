import MqssdModel.BPlusTree.RemoveSides

namespace MqssdModel.BPlusTree.RemoveRight

open Data.Arrays Data.Moves Data.Rows Data.Chain Data.TotalRun Machine Caching Routines Removal
  Checking InnerSpecs Views Shape Allocation Pending Splitting Search Steps InsertCascade InsertSplit
  Siblings RemoveCascade Rebalance Neighbours Sides RemoveInner RemoveSides

variable {cf : Config} {t : Tree} {st : Store} {nc lc rc pc : Ptr} {n n₁ m pn : Node}
  {a b u₁ u₂ U U₁ U₂ b' : Row} {us : List Row} {l k r q p key x e : ℤ} {low : List ℤ}
  {c cp : Content} {ks₁ ks₂ vs₁ vs₂ pk₁ pk₂ pv₁ pv₂ ks vs : List ℤ}
  {ropt lopt : List (Ptr × Node)} {lsib rsib : Option Ptr}

section Right

variable
  (h : Short cf st a l k r b low ((U₁ ++ .node p :: U₂) :: us) u₁ q (.sep x :: .node e :: b') c
    ks₁ ks₂ vs₁ vs₂ n)
  (hs : Spot cf st low u₁ q (.sep x :: .node e :: b') U₁ p U₂ us cp pk₁ (x :: ks) pv₁ pv₂ n key)
  (hpair : Pair cf st u₁ q x e b' U₁ p U₂ cp pk₁ ks pv₁ vs) (hcf : Sized cf)
  (hm : st.disk e = some (block m)) (hp : st.disk p = some (block pn))
  (hln : Neighbour st n.prev lsib lopt)
  (hn₁ : block n₁ = { block n with
    count := (ks₁.length + ks₂.length + 1 : ℕ)
    keys := ks₁ ++ ks₂
    vals := vs₁ ++ l :: vs₂ })
  (hrep : Rep t st ((nc, n₁) :: (rc, m) :: (pc, pn) :: lopt))

include h hs hpair hcf hm hp hln hn₁ hrep

omit hpair hcf in
theorem away_right {v : ℤ} (hv : v ∈ low) : Away ((nc, n₁) :: (rc, m) :: (pc, pn) :: lopt) v := by
  refine away_low hs (fun y hy ↦ ?_) hv
  rcases List.mem_cons.mp hy with rfl | hy
  · refine Or.inl ?_
    rw [show (nc, n₁).2.self = q from (congrArg Block.self hn₁).trans h.self]
    exact mem_nodes_middle
  rcases List.mem_cons.mp hy with rfl | hy
  · refine Or.inl ?_
    rw [show (rc, m).2.self = e from hrep.self e _ hm]
    simp
  rcases List.mem_cons.mp hy with rfl | hy
  · exact Or.inr (hrep.self p _ hp)
  · exact neighbour_self hs hrep.self hln (hs.prev_mem.imp_right (List.mem_append_left _)) y hy

theorem shiftRight_run (hbig : m.children > (cf.maxOrder + 1) / 2) :
    Runs (do
      nonLeafShiftFromRight cf nc rc pc pk₁.length
      nodeFlush (some nc)
      nodeFlush lsib
      nodeFlush (some rc)
      nodeFlush (some pc)) t fun _ t' ↦
        Grown cf st low (a ++ .node l :: b) (st.level - ((u₁ ++ .node q :: .sep x :: .node e :: b')
          :: (U₁ ++ .node p :: U₂) :: us).length) t' := by
  have horder := hcf.order
  have hcap := h.cap
  have hpcap := hs.cap_parent
  obtain ⟨hl₁, hl₂⟩ := h.lengths
  have ho := exists_other h (v := e) (by simp) hm
  have hcount := ho.count
  have hlen := ho.lengths
  have hmcap := ho.cap
  obtain ⟨xk, mk, hmk⟩ := List.exists_cons_of_length_pos (show 0 < (block m).keys.length by omega)
  obtain ⟨y, mv, hmv⟩ := List.exists_cons_of_length_pos (show 0 < (block m).vals.length by omega)
  have hy : y ∈ (block m).vals := by rw [hmv]; exact List.mem_cons_self
  have hi : (block pn).keys[pk₁.length]? = some x := by
    rw [hs.keys_parent hp]
    simp
  have hvlen : (block m).vals.length = mv.length + 1 := by rw [hmv]; rfl
  have hhalf := h.half (by simp; omega)
  have hinner := ho.inner
  have hself : n₁.self = q := (congrArg Block.self hn₁).trans h.self
  have hin : Inner n₁ (ks₁.length + ks₂.length) :=
    Inner.of_block ((congrArg Block.kind hn₁).trans h.inner.type) (congrArg Block.count hn₁)
  have hkeys : (block n₁).keys = ks₁ ++ ks₂ := congrArg Block.keys hn₁
  have hvals : (block n₁).vals = vs₁ ++ l :: vs₂ := congrArg Block.vals hn₁
  rw [hmk] at hlen hinner
  simp only [List.length_cons] at hlen hinner hpcap
  refine (nonLeafShiftFromRight_run hrep hln.length_le hin hinner (hs.inner_parent hp) (by omega)
    (by omega) hmk hmv hi (by simp; omega) (ho.present hcf hs.alloc hy)
    (away_right h hs hm hp hln hn₁ hrep (ho.low hy))).seq ?_
  rintro _ t₁ ⟨n', m', w', h₁, hn', hm', hw'⟩
  rw [hkeys, hvals, hn₁] at hn'
  rw [hself] at h₁
  have hsame := same_of_block h.disk h.self (m := n') (by rw [hn'])
  have hsame' := same_of_block hm (hrep.self e _ hm) (m := m') (by rw [hm'])
  have hsame'' := same_of_block hp (hrep.self p _ hp) (m := w') (by rw [hw'])
  have hln₁ : Neighbour (reparent st q [y]) n.prev lsib lopt :=
    hln.congr fun _ ↦ disk_reparent (by simpa using hs.prev_ne hcf (Or.inl (ho.low hy)))
  refine (flush_right_run h₁ hln₁ (by
    rw [← block_self, hsame.self]
    exact hs.prev_ne hcf (Or.inr List.mem_cons_self))).mono fun _ t₂ h₂ ↦ ?_
  obtain ⟨hshift, hadopted⟩ := shifted_pair _ [y] hs.alloc
    (fun v hv ↦ by rw [List.mem_singleton.mp hv, ho.par y hy]; rfl)
    (List.cons_subset.mpr ⟨ho.low hy, List.nil_subset _⟩) hsame hsame' hsame'' (Or.inr ⟨rfl, rfl⟩)
  have hcw : Block.content (block w') = { cp with keys := pk₁ ++ xk :: ks } := by
    rw [hw', hs.keys_parent hp, ← hs.content_parent hp,
      show splice (pk₁ ++ x :: ks) pk₁.length [xk] 1 = pk₁ ++ xk :: ks from
        splice_append pk₁ [xk] [x] ks]
    rfl
  rw [hcw] at hshift
  have hlv : (vs₁ ++ l :: vs₂).length = (ks₁ ++ ks₂).length + 1 := by simp; omega
  refine grown_of_shifted hshift h.level hpair ?_ (fun hu ↦ ?_) (fun hu ↦ ?_) ?_ ⟨?_, ?_⟩ h₂
  · rw [h.row_eq, hm', hn', expand_cons_sep, expand_cons_node, ho.row, hmk, hmv]
    simp only [Block.content]
    rw [weave_concat hlv]
    simp [weave]
  · exact innerOk_of_block hn' h.inner.type (by simp; omega) (by simp; omega) (by simp; omega)
      (by simp; omega) fun _ ↦ by simp; omega
  · exact innerOk_of_block hm' ho.ok.kind (by omega) (by omega) (by omega) (by omega)
      fun _ ↦ by omega
  · rw [hn']
    simp [Block.content]
  · intro v hv
    rw [hn'] at hv
    rcases List.mem_append.mp hv with hv' | hv'
    · rw [hshift.par v ?_, h.par_vals hv']
      rw [List.mem_singleton]
      rintro rfl
      have heq : e = q := Option.some.inj ((ho.par v hy).symm.trans (h.par_vals hv'))
      have hnd := hs.nodup.of_append_right
      exact (List.nodup_cons.mp hnd).1 (heq ▸ List.mem_cons_self)
    · exact hadopted v hv'
  · intro v hv
    rw [hm'] at hv
    have hnd := ho.nodup
    rw [hmv, List.nodup_cons] at hnd
    rw [hshift.par v (by rintro hm; exact hnd.1 (List.mem_singleton.mp hm ▸ hv))]
    exact ho.par v (by rw [hmv]; exact List.mem_cons_of_mem _ hv)

theorem mergeRight_run {remove : Ptr → ℤ → M Unit} (hremove : Removes cf us remove)
    (hsmall : m.children ≤ (cf.maxOrder + 1) / 2) (hn : n.children ≤ (cf.maxOrder + 1) / 2) :
    Runs (do
      nonLeafMergeFromRight cf nc rc pc pk₁.length
      let rrsib ← nodeFetch (← node rc).next
      nodeDelete rc (some nc) rrsib
      nodeFlush lsib
      remove pc pk₁.length) t fun _ t' ↦
        Grown cf st low (a ++ .node l :: b) (st.level - ((u₁ ++ .node q :: .sep x :: .node e :: b')
          :: (U₁ ++ .node p :: U₂) :: us).length) t' := by
  have hpcap := hs.cap_parent
  obtain ⟨hl₁, hl₂⟩ := h.lengths
  have ho := exists_other h (v := e) (by simp) hm
  have hcount := ho.count
  have hlen := ho.lengths
  have hhalf := h.half (by simp; omega)
  have htwo := ho.ok.half (by simp; omega)
  have htwo' := ho.ok.two
  have hnc := h.inner.children
  have hi : (block pn).keys[pk₁.length]? = some x := by
    rw [hs.keys_parent hp]
    simp
  have hself : n₁.self = q := (congrArg Block.self hn₁).trans h.self
  have hin : Inner n₁ (ks₁.length + ks₂.length) :=
    Inner.of_block ((congrArg Block.kind hn₁).trans h.inner.type) (congrArg Block.count hn₁)
  have hkeys : (block n₁).keys = ks₁ ++ ks₂ := congrArg Block.keys hn₁
  have hvals : (block n₁).vals = vs₁ ++ l :: vs₂ := congrArg Block.vals hn₁
  simp only [List.length_cons] at hpcap
  refine (nonLeafMergeFromRight_run hrep hln.length_le hin ho.inner (hs.inner_parent hp) (by omega)
    hi (by simp; omega) (fun v hv ↦ ho.present hcf hs.alloc hv)
    fun v hv ↦ away_right h hs hm hp hln hn₁ hrep (ho.low hv)).seq ?_
  rintro _ t₁ ⟨n', h₁, hn'⟩
  rw [hkeys, hvals, hn₁] at hn'
  rw [hself] at h₁
  have hsame := same_of_block h.disk h.self (m := n') (by rw [hn'])
  refine deleteRight_bind _ hs hm hrep.self hcf hln hsame.self (hrep.self p _ hp) ho.low h₁
    fun t₂ h₂ ↦ ?_
  have hmerged := merged_pair _ (block m).vals hs.alloc
    (fun v hv ↦ by rw [ho.par v hv]; rfl) ho.low hcf hs.linked hsame (next_right hs hm)
  refine (merge_up _ hcf hremove hmerged hs.upper hpair hs.sorted hs.alloc ho.low hp
    (hrep.self p _ hp) h₂).mono fun _ t₃ h₃ ↦ ?_
  have hlv : (vs₁ ++ l :: vs₂).length = (ks₁ ++ ks₂).length + 1 := by simp; omega
  rw [level_cons]
  refine grown_of_merged hmerged h.level ?_ ?_ ?_ ?_ hcf h₃
  · rw [h.row_eq, hn', expand_cons_sep, expand_cons_node, ho.row]
    simp only [Block.content]
    rw [weave_concat hlv]
    simp
  · exact innerOk_of_block hn' h.inner.type (by simp; omega) (by simp; omega) (by simp; omega)
      (by simp; omega) fun _ ↦ by simp; omega
  · rw [hn']
    exact List.subset_append_right _ _
  · intro v hv hout
    rw [hn'] at hv
    exact h.par_vals ((List.mem_append.mp hv).resolve_right hout)

end Right

section Run

variable (hcf : Sized cf)

include hcf

theorem removes_root (fuel : ℕ) : Removes cf [] (nonLeafRemoveChecked cf (fuel + 1)) := by
  intro t st nc n a b u₁ u₂ l k r q low c ks₁ ks₂ vs₁ vs₂ hrep h
  obtain ⟨hu₁, hu₂, hpar⟩ := root_eq h
  have hch := h.inner.children
  refine hrep.node_bind mem₁ ?_
  rw [if_pos hpar]
  by_cases htwo : n.children = 2
  · rw [if_pos htwo]
    refine (collapse_run h hcf hrep (by omega)).mono ?_
    rintro _ t₁ ⟨bl, hbl, h₁⟩
    exact grown_collapsed h (hrep.self l bl hbl) hbl (by omega) h₁
  · rw [if_neg htwo]
    refine h.simpleRemove_run hrep (by omega) fun hlen ↦ ?_
    simp [hu₁, hu₂] at hlen

theorem removes_cons {fuel : ℕ} (ih : Removes cf us (nonLeafRemoveChecked cf fuel)) :
    Removes cf (U :: us) (nonLeafRemoveChecked cf (fuel + 1)) := by
  intro t st nc n a b u₁ u₂ l k r q low c ks₁ ks₂ vs₁ vs₂ hrep h
  obtain ⟨U₁, p, U₂, cp, pk₁, pk₂, pv₁, pv₂, rfl, hs⟩ := spot_of_short h
  have horder := hcf.order
  have hcap := h.cap
  have hch := h.inner.children
  have hkey : keyField.cap cf n = cf.maxOrder - 1 := by simp [keyField, isLeaf, h.inner.type]
  refine hrep.node_bind mem₁ ?_
  rw [if_neg (hs.parent_eq ▸ hs.parent_ne hcf)]
  by_cases hsmall : n.children ≤ (cf.maxOrder + 1) / 2
  · rw [if_pos hsmall]
    refine choose_bind hs hcf hrep (by omega) ?_ ?_
    · rintro t₁ lc rsib pc m pn ropt a' g x ks vs rfl rfl hpair hprev hm hp hidx hrn h₁
      rw [hidx]
      refine deref_bind (h₁.node_bind mem₂ ?_)
      by_cases hbig : m.children > (cf.maxOrder + 1) / 2
      · rw [if_pos hbig]
        exact shiftLeft_run h hs hpair hprev hcf hm hp hrn h₁ hbig
      · rw [if_neg hbig]
        exact mergeLeft_run h hs hpair hprev hcf hm hp hrn h₁ ih (by omega) hsmall
    · rintro t₁ rc lsib pc m pn lopt b' x e ks vs rfl rfl hpair hm hp hidx hln h₁
      refine (nonLeafSimpleRemove_run h₁ h.inner (by omega) (by omega)).seq ?_
      rintro _ t₂ ⟨n₁, h₂, hn₁⟩
      rw [h.splice_keys, h.splice_vals] at hn₁
      refine deref_bind (h₂.node_bind mem₂ ?_)
      rw [hidx]
      by_cases hbig : m.children > (cf.maxOrder + 1) / 2
      · rw [if_pos hbig]
        exact shiftRight_run h hs hpair hcf hm hp hln hn₁ h₂ hbig
      · rw [if_neg hbig]
        exact mergeRight_run h hs hpair hcf hm hp hln hn₁ h₂ ih (by omega) hsmall
  · rw [if_neg hsmall]
    exact h.simpleRemove_run hrep (by omega) fun _ ↦ by omega

/-- `non_leaf_remove` climbs at most to the root. -/
theorem removes {fuel : ℕ} (hfuel : us.length < fuel) :
    Removes cf us (nonLeafRemoveChecked cf fuel) := by
  induction us generalizing fuel with
  | nil =>
    obtain ⟨fuel, rfl⟩ := Nat.exists_eq_add_of_lt hfuel
    rw [List.length_nil, Nat.zero_add]
    exact removes_root hcf fuel
  | cons U us ih =>
    obtain ⟨fuel, rfl⟩ := Nat.exists_eq_add_of_lt hfuel
    rw [List.length_cons]
    exact removes_cons hcf (ih (by omega))

end Run

end MqssdModel.BPlusTree.RemoveRight
