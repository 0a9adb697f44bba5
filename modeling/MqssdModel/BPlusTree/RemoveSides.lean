import MqssdModel.BPlusTree.RemoveInner
import MqssdModel.BPlusTree.Sides

namespace MqssdModel.BPlusTree.RemoveSides

open Data.Arrays Data.Moves Data.Rows Data.Chain Data.TotalRun Machine Caching Routines Removal
  InnerSpecs Views Shape Allocation Pending Splitting Search Steps InsertCascade InsertSplit
  Siblings RemoveCascade Rebalance Neighbours Sides RemoveInner

variable {cf : Config} {t : Tree} {st : Store} {nc lc rc pc : Ptr} {n m pn : Node}
  {a b u₁ u₂ U U₁ U₂ : Row} {us : List Row} {l k r q p key : ℤ} {low : List ℤ} {c cp : Content}
  {ks₁ ks₂ vs₁ vs₂ pk₁ pk₂ pv₁ pv₂ : List ℤ} {ropt lopt : List (Ptr × Node)}
  {lsib rsib : Option Ptr}

theorem spot_of_short (h : Short cf st a l k r b low (U :: us) u₁ q u₂ c ks₁ ks₂ vs₁ vs₂ n) :
    ∃ U₁ p U₂ cp pk₁ pk₂ pv₁ pv₂, U = U₁ ++ .node p :: U₂ ∧
      Spot cf st low u₁ q u₂ U₁ p U₂ us cp pk₁ pk₂ pv₁ pv₂ n (n.key 0) := by
  obtain ⟨hrow, hin, hlink, hup⟩ := h.lack.upper
  have hnd := h.lack.alloc.nodup.of_append_left.of_append_right.of_append_left
  obtain ⟨U₁, p, U₂, cp, pk₁, pk₂, pv₁, pv₂, rfl, hplace⟩ := hup.locate hnd
  have hs := h.lack.sorted
  have hkeys := h.keys
  have hkey : n.key 0 ∈ (block n).keys := by
    rw [h.inner.block_eq]
    exact apply_mem_front n.key le_rfl (by omega)
  have hseps : seps (row st q) = (block n).keys := by
    rw [Shape.row_eq h.lack.pair.content, seps_weave h.lack.pair.ok.keys, ← h.content_eq]
    rfl
  have hs' := hs
  rw [hrow, expand_append, expand_cons_node, seps_append, seps_append, hseps] at hs'
  obtain ⟨-, hs₂, hlt⟩ := List.pairwise_append.mp hs'
  have hbefore : ∀ x ∈ pk₁, x ∈ seps (expand (row st) u₁) := fun x hx ↦ by
    refine seps_sublist_expand.subset ?_
    rw [hplace.left, seps_append, seps_lefts hplace.left_length]
    exact List.mem_append_right _ hx
  have hafter : ∀ x ∈ pk₂, x ∈ seps (expand (row st) u₂) := fun x hx ↦ by
    refine seps_sublist_expand.subset ?_
    rw [hplace.right, seps_append, seps_rights hplace.right_length]
    exact List.mem_append_left _ hx
  refine ⟨U₁, p, U₂, cp, pk₁, pk₂, pv₁, pv₂, rfl, hup, hplace, hlink, h.lack.alloc,
    fun v hv ↦ ?_, ?_, h.disk, h.self, fun x hx ↦ ?_, fun x hx ↦ ?_⟩
  · obtain ⟨cv, hcv, -⟩ := hin v hv
    exact isSome_of_content hcv
  · rw [hrow] at hs
    exact hs.sublist seps_sublist_expand
  · exact (hlt x (hbefore x hx) _ (List.mem_append_left _ hkey)).le
  · exact (List.pairwise_append.mp hs₂).2.2 _ hkey x (hafter x hx)

/-- Another node of the level, read into a cache. -/
structure Other (cf : Config) (st : Store) (low : List ℤ) (u : Row) (v : ℤ) (m : Node) : Prop where
  ok : InnerOk cf u (Block.content (block m))
  par : ∀ x ∈ (block m).vals, par st x = some v
  low : (block m).vals ⊆ low
  nodup : (block m).vals.Nodup
  row : row st v = weave (block m).keys (block m).vals

theorem exists_other (h : Short cf st a l k r b low us u₁ q u₂ c ks₁ ks₂ vs₁ vs₂ n) {v : ℤ}
    (hv : v ∈ nodes u₁ ++ nodes u₂) (hm : st.disk v = some (block m)) :
    Other cf st low (u₁ ++ .node q :: u₂) v m := by
  have hmem : v ∈ nodes (u₁ ++ .node q :: u₂) := by
    simp only [nodes_append, nodes_cons_node, List.mem_append, List.mem_cons] at hv ⊢
    tauto
  obtain ⟨cm, hcm, hok, hpar⟩ := h.level.inner v hmem
  have hcm' : content st v = some (Block.content (block m)) := by
    rw [content, hm]
    rfl
  obtain rfl := Option.some.inj (hcm.symm.trans hcm')
  have hrow : nodes (row st v) = (block m).vals := hok.nodes_row hcm
  refine ⟨hok, hpar, fun x hx ↦ (h.level.rest h.row_eq ?_).1, ?_, Shape.row_eq hcm⟩
  · rw [← hrow] at hx
    rcases List.mem_append.mp hv with hv | hv
    · exact List.mem_append_left _ (nodes_row_subset hv hx)
    · exact List.mem_append_right _ (nodes_row_subset hv hx)
  · have hnd := h.level.nodup
    rw [h.row_eq, nodes_append, nodes_append] at hnd
    rw [← hrow]
    rcases List.mem_append.mp hv with hv | hv
    · exact hnd.of_append_left.sublist (nodes_row_sublist hv)
    · exact hnd.of_append_right.of_append_right.sublist (nodes_row_sublist hv)

namespace Other

variable {u : Row} {v : ℤ} (h : Other cf st low u v m)

include h

theorem count : m.children = (block m).vals.length := h.ok.count

theorem lengths : (block m).vals.length = (block m).keys.length + 1 := h.ok.keys

theorem inner : Inner m (block m).keys.length := inner_of_ok h.ok

theorem cap : ((block m).vals.length : ℤ) ≤ cf.maxOrder := h.ok.cap

theorem present (hcf : Sized cf) {used : List ℤ} (halloc : Alloc cf st (low ++ used)) {x : ℤ}
    (hx : x ∈ (block m).vals) : Present st x := by
  obtain ⟨bx, hb, -⟩ := Option.map_eq_some_iff.mp (h.par x hx)
  exact ⟨halloc.ne_invalid hcf (List.mem_append_left _ (h.low hx)), by simp [hb]⟩

end Other

theorem innerOk_of_block {n' : Node} {u : Row} {i : ℤ} {ks vs : List ℤ}
    (hb : block n' = { block n with count := i, keys := ks, vals := vs })
    (hkind : (block n).kind = .nonLeaf) (hcount : i = vs.length)
    (hkeys : vs.length = ks.length + 1) (htwo : 2 ≤ vs.length) (hcap : (vs.length : ℤ) ≤ cf.maxOrder)
    (hhalf : 1 < u.length → cf.maxOrder / 2 ≤ vs.length) :
    InnerOk cf u (Block.content (block n')) := by
  rw [hb]
  exact ⟨hkind, hcount, hkeys, htwo, hcap, hhalf⟩

theorem level_cons {d : ℤ} {u : Row} :
    d - ((u :: U :: us).length : ℕ) = d - ((U :: us).length : ℕ) - 1 := by
  simp only [List.length_cons]
  omega

variable (low) in
/-- The levels above a merge. -/
theorem merge_up {g x e : ℤ} {st₁ : Store} {moved ks vs : List ℤ} {cg : Content}
    {remove : Ptr → ℤ → M Unit} (hcf : Sized cf) (hremove : Removes cf us remove)
    (hmerged : Merged st st₁ a g e b moved cg)
    (hup : Upper cf st (a ++ .node g :: .sep x :: .node e :: b) ((U₁ ++ .node p :: U₂) :: us))
    (hpair : Pair cf st a g x e b U₁ p U₂ cp ks pk₂ vs pv₂)
    (hsorted : (seps (a ++ .node g :: .sep x :: .node e :: b)).Pairwise (· < ·))
    (halloc : Alloc cf st (low ++ (nodes (a ++ .node g :: .sep x :: .node e :: b) ++
      offsets ((U₁ ++ .node p :: U₂) :: us)))) (hlow : moved ⊆ low)
    (hp : st.disk p = some (block pn)) (hself : pn.self = p) (hrep : Rep t st₁ [(pc, pn)]) :
    Runs (remove pc ks.length) t fun _ t' ↦
      Grown cf st₁ (low ++ nodes (a ++ .node g :: b)) (a ++ .node g :: b)
        (st.level - ((U₁ ++ .node p :: U₂) :: us).length) t' := by
  rw [nodes_pair] at halloc
  have hnd := halloc.nodup.of_append_left
  have hpm : p ∈ offsets ((U₁ ++ .node p :: U₂) :: us) := List.mem_append_left _ mem_nodes_middle
  have hdisk : st₁.disk p = some (block pn) := by
    refine (hmerged.disk p (fun hm ↦ ?_) (fun hm ↦ ?_) (halloc.ne_invalid hcf ?_)).trans hp
    · exact List.disjoint_of_nodup_append hnd.of_append_right hm hpm
    · exact List.disjoint_of_nodup_append hnd (hlow hm) (List.mem_append_right _ hpm)
    · exact List.mem_append_right _ (List.mem_append_right _ hpm)
  have hlevel : st₁.level = st.level := congrArg Header.level hmerged.header
  have hlack := lack_of_merged hmerged hcf hup hpair hsorted halloc hlow
  rw [← hlevel]
  exact hremove hrep ⟨hlack, hdisk, hself⟩

section Left

variable {a' : Row} {g x : ℤ} {ks vs : List ℤ}
  (h : Short cf st a l k r b low ((U₁ ++ .node p :: U₂) :: us) (a' ++ [.node g, .sep x]) q u₂ c
    ks₁ ks₂ vs₁ vs₂ n)
  (hs : Spot cf st low (a' ++ [.node g, .sep x]) q u₂ U₁ p U₂ us cp (ks ++ [x]) pk₂ pv₁ pv₂ n key)
  (hpair : Pair cf st a' g x q u₂ U₁ p U₂ cp ks pk₂ vs pv₂) (hprev : n.prev = g) (hcf : Sized cf)
  (hm : st.disk g = some (block m)) (hp : st.disk p = some (block pn))
  (hrn : Neighbour st n.next rsib ropt)
  (hrep : Rep t st ((nc, n) :: (lc, m) :: (pc, pn) :: ropt))

include h hs hpair hprev hcf hm hp hrn hrep

theorem away_left {v : ℤ} (hv : v ∈ low) : Away ((nc, n) :: (lc, m) :: (pc, pn) :: ropt) v := by
  refine away_low hs (fun y hy ↦ ?_) hv
  rcases List.mem_cons.mp hy with rfl | hy
  · exact Or.inl (h.self ▸ mem_nodes_middle)
  rcases List.mem_cons.mp hy with rfl | hy
  · refine Or.inl ?_
    rw [show (lc, m).2.self = g from hrep.self g _ hm]
    simp
  rcases List.mem_cons.mp hy with rfl | hy
  · exact Or.inr (hrep.self p _ hp)
  · exact neighbour_self hs hrep.self hrn (hs.next_mem.imp_right (List.mem_append_right _)) y hy

theorem shiftLeft_run (hbig : m.children > (cf.maxOrder + 1) / 2) :
    Runs (do
      nonLeafShiftFromLeft cf nc lc pc ks.length ks₁.length
      nodeFlush (some nc)
      nodeFlush (some lc)
      nodeFlush rsib
      nodeFlush (some pc)) t fun _ t' ↦
        Grown cf st low (a ++ .node l :: b) (st.level - ((a' ++ [.node g, .sep x] ++
          .node q :: u₂) :: (U₁ ++ .node p :: U₂) :: us).length) t' := by
  have horder := hcf.order
  have hcap := h.cap
  have hpcap := hs.cap_parent
  obtain ⟨hl₁, hl₂⟩ := h.lengths
  have ho := exists_other h (v := g) (by simp) hm
  have hcount := ho.count
  have hlen := ho.lengths
  have hmcap := ho.cap
  obtain ⟨mk, xk, hmk⟩ := (List.eq_nil_or_concat' (block m).keys).resolve_left
    (List.ne_nil_of_length_pos (by omega))
  obtain ⟨mv, y, hmv⟩ := (List.eq_nil_or_concat' (block m).vals).resolve_left
    (List.ne_nil_of_length_pos (by omega))
  have hy : y ∈ (block m).vals := by rw [hmv]; simp
  have hi : (block pn).keys[ks.length]? = some x := by
    rw [hs.keys_parent hp]
    simp
  have hvlen : (block m).vals.length = mv.length + 1 := by rw [hmv]; simp
  have hhalf := h.half (by simp; omega)
  have hinner := ho.inner
  rw [hmk] at hlen hinner
  simp only [List.length_append, List.length_singleton] at hlen hinner hpcap
  refine (nonLeafShiftFromLeft_run hrep hrn.length_le h.inner hinner (hs.inner_parent hp) (by omega)
    (by omega) (by omega) hmk hmv hi (by simp; omega) (ho.present hcf hs.alloc hy)
    (away_left h hs hpair hprev hcf hm hp hrn hrep (ho.low hy))).seq ?_
  rintro _ t₁ ⟨n', m', w', h₁, hn', hm', hw'⟩
  rw [h.splice_keys, h.splice_vals] at hn'
  rw [h.self] at h₁
  have hn₁ := same_of_block h.disk h.self (m := n') (by rw [hn'])
  have hm₁ := same_of_block hm (hrep.self g _ hm) (m := m') (by rw [hm'])
  have hw₁ := same_of_block hp (hrep.self p _ hp) (m := w') (by rw [hw'])
  have hnx : ∀ v ∈ low ++ nodes (a' ++ [.node g, .sep x]) ++ [q], n.next ≠ v := fun v hv ↦ by
    refine hs.next_ne hcf ?_
    simp only [List.mem_append] at hv ⊢
    tauto
  have hrn₁ : Neighbour (reparent st q [y]) n.next rsib ropt :=
    hrn.congr fun _ ↦ disk_reparent (by simpa using hnx y (by simp [ho.low hy]))
  refine (flush_left_run h₁ hrn₁ (by rw [← block_self, hn₁.self]; exact hnx q (by simp))
    (by rw [← block_self, hm₁.self]; exact hnx g (by simp))).mono fun _ t₂ h₂ ↦ ?_
  have hrow : a' ++ [.node g, .sep x] ++ .node q :: u₂ = a' ++ .node g :: .sep x :: .node q :: u₂ := by
    simp
  have halloc := hs.alloc
  have hlevel := h.level
  rw [hrow] at halloc hlevel ⊢
  obtain ⟨hshift, hadopted⟩ := shifted_pair _ [y] halloc
    (fun v hv ↦ by rw [List.mem_singleton.mp hv, ho.par y hy]; rfl)
    (List.cons_subset.mpr ⟨ho.low hy, List.nil_subset _⟩) hn₁ hm₁ hw₁ (Or.inl ⟨rfl, rfl⟩)
  have hcw : Block.content (block w') = { cp with keys := ks ++ xk :: pk₂ } := by
    rw [hw', hs.keys_parent hp, ← hs.content_parent hp, List.append_assoc, List.singleton_append,
      show splice (ks ++ x :: pk₂) ks.length [xk] 1 = ks ++ xk :: pk₂ from
        splice_append ks [xk] [x] pk₂]
    rfl
  rw [hcw] at hshift
  refine grown_of_shifted (shifted_symm hshift) hlevel hpair ?_ (fun hu ↦ ?_) (fun hu ↦ ?_) ?_ ⟨?_, ?_⟩ h₂
  · rw [h.row_eq, hm', hn', expand_append, expand_cons_node, ho.row, hmk, hmv,
      weave_concat (by omega)]
    simp [Block.content, weave]
  · exact innerOk_of_block hm' ho.ok.kind (by omega) (by omega) (by omega) (by omega) fun _ ↦ by omega
  · exact innerOk_of_block hn' h.inner.type (h.inner.children.trans (by simp; omega)) (by simp; omega) (by simp; omega)
      (by simp; omega) fun _ ↦ by simp; omega
  · rw [hn']
    simp [Block.content]
  · intro v hv
    rw [hm'] at hv
    have hne : v ∉ [y] := by
      have hnd := ho.nodup
      rw [hmv] at hnd
      exact List.disjoint_of_nodup_append hnd hv
    rw [hshift.par v hne]
    exact ho.par v (by rw [hmv]; exact List.mem_append_left _ hv)
  · intro v hv
    rw [hn'] at hv
    rcases List.mem_cons.mp hv with rfl | hv'
    · exact hadopted v (by simp)
    · rw [hshift.par v ?_, h.par_vals hv']
      rw [List.mem_singleton]
      rintro rfl
      have hgq : g = q := Option.some.inj ((ho.par v hy).symm.trans (h.par_vals hv'))
      exact hs.prev_ne hcf (Or.inr List.mem_cons_self) (hprev.trans hgq)

theorem mergeLeft_run {remove : Ptr → ℤ → M Unit} (hremove : Removes cf us remove)
    (hsmall : m.children ≤ (cf.maxOrder + 1) / 2) (hn : n.children ≤ (cf.maxOrder + 1) / 2) :
    Runs (do
      nonLeafMergeIntoLeft cf nc lc pc ks.length ks₁.length
      nodeDelete nc (some lc) rsib
      remove pc ks.length) t fun _ t' ↦
        Grown cf st low (a ++ .node l :: b) (st.level - ((a' ++ [.node g, .sep x] ++
          .node q :: u₂) :: (U₁ ++ .node p :: U₂) :: us).length) t' := by
  have hpcap := hs.cap_parent
  obtain ⟨hl₁, hl₂⟩ := h.lengths
  have ho := exists_other h (v := g) (by simp) hm
  have hcount := ho.count
  have hlen := ho.lengths
  have hhalf := h.half (by simp; omega)
  have htwo := ho.ok.two
  have hnc := h.inner.children
  have hi : (block pn).keys[ks.length]? = some x := by
    rw [hs.keys_parent hp]
    simp
  have hmoved : splice (block n).vals (ks₁.length + 1) [] 1 = vs₁ ++ l :: vs₂ := h.splice_vals
  simp only [List.length_append, List.length_singleton] at hpcap
  refine (nonLeafMergeIntoLeft_run hrep hrn.length_le h.inner ho.inner (hs.inner_parent hp)
    (by omega) (by omega) (by omega) hi (by simp; omega)
    (by rw [hmoved]; exact fun v hv ↦ h.present hcf hv) (by
      rw [hmoved]
      exact fun v hv ↦ away_left h hs hpair hprev hcf hm hp hrn hrep (h.vals_mem hv))).seq ?_
  rintro _ t₁ ⟨m', h₁, hm'⟩
  rw [h.splice_keys, hmoved] at hm'
  rw [hmoved, show m.self = g from hrep.self g _ hm] at h₁
  have hm₁ := same_of_block hm (hrep.self g _ hm) (m := m') (by rw [hm'])
  have hlow : vs₁ ++ l :: vs₂ ⊆ low := fun v hv ↦ h.vals_mem hv
  have hrn₁ : Neighbour (reparent st g (vs₁ ++ l :: vs₂)) n.next rsib ropt :=
    hrn.congr fun _ ↦ disk_reparent fun hv ↦ hs.next_ne hcf (Or.inl (hlow hv)) rfl
  have hq : n.self ≠ invalidOffset := h.self ▸ hs.row_ne_invalid hcf mem_nodes_middle
  have hperm : ((nc, n) :: (lc, m') :: (pc, pn) :: ropt).Perm
      ((nc, n) :: (lc, m') :: (ropt ++ [(pc, pn)])) :=
    ((List.perm_append_singleton _ _).symm.cons _).cons _
  refine (nodeDelete_run (h₁.perm hperm) hrn₁ hq).seq fun _ t₂ h₂ ↦ ?_
  rw [h.self, show m'.self = g from hm₁.self] at h₂
  have hrow : a' ++ [.node g, .sep x] ++ .node q :: u₂ = a' ++ .node g :: .sep x :: .node q :: u₂ := by
    simp
  have halloc := hs.alloc
  have hlevel := h.level
  have hup := hs.upper
  have hsorted := hs.sorted
  rw [hrow] at halloc hlevel hup hsorted ⊢
  have hmerged := merged_pair _ (vs₁ ++ l :: vs₂) halloc
    (fun v hv ↦ by rw [h.par_vals hv]; rfl) hlow hcf hlevel.linked hm₁ hs.links_eq.2
  refine (merge_up _ hcf hremove hmerged hup hpair hsorted halloc hlow hp (hrep.self p _ hp)
    h₂).mono fun _ t₃ h₃ ↦ ?_
  rw [level_cons]
  refine grown_of_merged hmerged hlevel ?_ ?_ ?_ ?_ hcf h₃
  · rw [h.row_eq, hm', expand_append, expand_cons_node, ho.row]
    simp only [Block.content]
    rw [weave_concat hlen]
    simp
  · exact innerOk_of_block hm' ho.ok.kind (by simp; omega) (by simp; omega) (by simp; omega)
      (by simp; omega) fun _ ↦ by simp; omega
  · rw [hm']
    exact List.subset_append_right _ _
  · intro v hv hout
    rw [hm'] at hv
    exact ho.par v ((List.mem_append.mp hv).resolve_right hout)

end Left

end MqssdModel.BPlusTree.RemoveSides
