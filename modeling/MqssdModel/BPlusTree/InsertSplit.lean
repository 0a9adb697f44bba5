import MqssdModel.BPlusTree.InsertInner

namespace MqssdModel.BPlusTree.InsertSplit

open Data.Arrays Data.Rows Data.Chain Data.TotalRun Machine Caching Routines Insertion InnerSpecs
  Views Shape Allocation Pending Splitting Steps Search InsertCascade InsertInner

/-- The keys and children of a non-leaf that is one too full, cut at the key `sk` into the blocks
`x` and `y`. -/
structure Cut (cf : Config) (ks vs : List ℤ) (sk : ℤ) (x y : Block) (m : ℕ) : Prop where
  length : vs.length = ks.length + 1
  order : ks.length = cf.maxOrder
  key : ks[m]? = some sk
  low : cf.maxOrder / 2 ≤ m + 1
  high : m ≤ cf.maxOrder / 2
  left : Block.content x = ⟨.nonLeaf, (m + 1 : ℕ), ks.take m, vs.take (m + 1)⟩
  right : Block.content y = ⟨.nonLeaf, (ks.length - m : ℕ), ks.drop (m + 1), vs.drop (m + 1)⟩

namespace Cut

variable {cf : Config} {ks vs : List ℤ} {sk : ℤ} {x y : Block} {m : ℕ} {u : Row}

theorem innerOk_left (h : Cut cf ks vs sk x y m) (hcf : Sized cf) :
    InnerOk cf u (Block.content x) := by
  obtain ⟨hlen, horder, -, hlow, hhigh, hx, -⟩ := h
  have := hcf.order
  have hv : (vs.take (m + 1)).length = m + 1 := by rw [List.length_take]; omega
  have hk : (ks.take m).length = m := by rw [List.length_take]; omega
  rw [hx]
  exact ⟨rfl, by rw [hv], by rw [hv, hk], by rw [hv]; omega, by rw [hv]; omega,
    fun _ ↦ by rw [hv]; omega⟩

theorem innerOk_right (h : Cut cf ks vs sk x y m) (hcf : Sized cf) :
    InnerOk cf u (Block.content y) := by
  obtain ⟨hlen, horder, -, hlow, hhigh, -, hy⟩ := h
  have := hcf.order
  have hv : (vs.drop (m + 1)).length = ks.length - m := by rw [List.length_drop]; omega
  have hk : (ks.drop (m + 1)).length = ks.length - (m + 1) := by rw [List.length_drop]
  rw [hy]
  exact ⟨rfl, by rw [hv], by rw [hv, hk]; omega, by rw [hv]; omega, by rw [hv]; omega,
    fun _ ↦ by rw [hv]; omega⟩

theorem vals_append (h : Cut cf ks vs sk x y m) : x.vals ++ y.vals = vs := by
  have hx : x.vals = vs.take (m + 1) := congrArg Content.vals h.left
  have hy : y.vals = vs.drop (m + 1) := congrArg Content.vals h.right
  rw [hx, hy, List.take_append_drop]

theorem weave_eq (h : Cut cf ks vs sk x y m) :
    weave x.keys x.vals ++ .sep sk :: weave y.keys y.vals = weave ks vs := by
  rw [← weave_cut h.length h.key]
  have hl := h.left
  have hr := h.right
  simp only [Block.content, Content.mk.injEq] at hl hr
  rw [hl.2.2.1, hl.2.2.2, hr.2.2.1, hr.2.2.2]

end Cut

theorem isSome_of_content {st : Store} {o : ℤ} {c : Content} (h : content st o = some c) :
    (st.disk o).isSome := by
  obtain ⟨b, hb, -⟩ := Option.map_eq_some_iff.mp h
  exact Option.isSome_iff_exists.mpr ⟨b, hb⟩

theorem pending_comm {st : Store} {x y : Node} (h : x.self ≠ y.self) :
    pending st x y = pending st y x := by
  unfold pending Store.write
  simp only [Store.mk.injEq, and_true]
  exact Function.update_comm (f := st.disk) h (some (block x)) (some (block y))

variable {cf : Config} {t : Tree} {st S : Store} {lc rc nc mc : Ptr} {l r n n' m' x y : Node}
  {key sk o q e : ℤ} {a b u₁ u₂ : Row} {low xs ys : List ℤ} {us : List Row}
  {ks₁ ks₂ vs₁ vs₂ : List ℤ} {c : Content} {m : ℕ} {g : ℤ × ℤ → ℤ × ℤ}

/-- The links after a split, away from the halves. -/
theorem links_split (hS : ∀ v, v ≠ invalidOffset → links S v =
      if v = e then (links st v).map g else links st v) (hl : l.self ≠ e) (hr : r.self ≠ e)
    {v f : ℤ} {moved : List ℤ} (hx : v ≠ x.self) (hy : v ≠ y.self) (hv : v ≠ invalidOffset) :
    links (pending (adopt S f moved l r) x y) v =
      if v = e then (links (pending st l r) v).map g else links (pending st l r) v := by
  rw [links_pending, if_neg hy, if_neg hx, links_adopt, links_pending, hS v hv, links_pending]
  by_cases he : v = e
  · subst he
    rw [if_neg hr.symm, if_neg hl.symm, if_pos rfl, if_pos rfl, if_neg hr.symm, if_neg hl.symm]
  · rw [if_neg he, if_neg he]

section Halves

variable (h : Parent cf st l r key a b o low us u₁ q u₂ c ks₁ ks₂ vs₁ vs₂ n)

include h

theorem nodup_row : (st.fresh :: (nodes u₁ ++ q :: nodes u₂)).Nodup := by
  have hnd := h.pend.nodup_all.of_append_right.of_append_left
  have hf := h.pend.fresh_notMem.2.1
  rw [nodes_append, nodes_cons_node] at hnd hf
  exact List.nodup_cons.mpr ⟨hf, hnd⟩

theorem invalid_notMem (hcf : Sized cf) : invalidOffset ∉ nodes u₁ ++ q :: nodes u₂ := by
  intro hm
  refine h.pend.alloc.ne_invalid hcf (List.mem_append_right _ (List.mem_append_left _ ?_)) rfl
  rwa [nodes_append, nodes_cons_node]

theorem linked_row : Linked (links (pending st l r)) invalidOffset (nodes u₁ ++ q :: nodes u₂)
    invalidOffset := by
  obtain ⟨-, -, hlink, -⟩ := h.pend.upper
  rwa [nodes_append, nodes_cons_node] at hlink

theorem nodup_vals : (vs₁ ++ l.self :: r.self :: vs₂).Nodup ∧
    ∀ v ∈ vs₁ ++ l.self :: r.self :: vs₂, v ∈ low := by
  have hnd := h.pend.nodup
  have hsub := h.pend.sub
  simp only [h.place.left, h.place.right, nodes_append, nodes_cons_node, nodes_cons_sep,
    nodes_lefts h.place.left_length, nodes_rights h.place.right_length, List.append_assoc]
    at hnd hsub
  refine ⟨?_, fun v hv ↦ hsub ?_⟩
  · have hnd' := hnd.of_append_right
    rw [← List.cons_append, ← List.cons_append, ← List.append_assoc] at hnd'
    exact hnd'.of_append_left
  · simp only [List.mem_append, List.mem_cons] at hv ⊢
    tauto

theorem halves_parent (hSc : ∀ v, content S v = content st v) (hSp : ∀ v, par S v = par st v)
    (hSd : ∀ v, v ∉ nodes u₁ ++ nodes u₂ → v ≠ invalidOffset → S.disk v = st.disk v)
    (hx : x.self = q) (hp : x.parent = n.parent) (hy : y.self = st.fresh)
    (hvals : (block y).vals = xs ++ l.self :: r.self :: ys)
    (hperm : ((block x).vals ++ (block y).vals).Perm (vs₁ ++ l.self :: r.self :: vs₂)) :
    Halves (pending st l r) (pending (adopt S st.fresh (xs ++ ys) l r) x y)
      (nodes u₁ ++ nodes u₂) q st.fresh (Block.content (block x)) (Block.content (block y)) := by
  obtain ⟨hnd, hlow⟩ := nodup_vals h
  obtain ⟨hflow, hfrow, -⟩ := h.pend.fresh_notMem
  refine Splitting.halves hSc hSp hSd ?_ (fun v hv hl hr ↦ ?_) (hp ▸ h.par_self) hvals hx hy
  · refine List.nodup_append'.mpr ⟨hperm.nodup_iff.mpr hnd, ?_, fun v hv hm ↦ ?_⟩
    · have hne : q ≠ st.fresh := fun he ↦ hfrow (he ▸ mem_nodes_middle)
      simpa using hne
    · have hv' := hlow v (hperm.mem_iff.mp hv)
      rcases List.mem_pair.mp hm with rfl | rfl
      · exact (h.pend.low_notMem hv').1 mem_nodes_middle
      · exact hflow hv'
  · refine h.place.par v ?_
    have hv' := hperm.mem_iff.mp hv
    rw [h.place.vals]
    simp only [List.mem_append, List.mem_cons] at hv' ⊢
    tauto

theorem splitRight (hcf : Sized cf)
    (hcut : Cut cf (ks₁ ++ key :: ks₂) (vs₁ ++ l.self :: r.self :: vs₂) sk (block x) (block y) m)
    (hx : x.self = q ∧ x.parent = n.parent ∧ x.prev = n.prev ∧ x.next = st.fresh)
    (hy : y.self = st.fresh ∧ y.parent = invalidOffset ∧ y.prev = q ∧ y.next = n.next)
    (hvals : (block y).vals = xs ++ l.self :: r.self :: ys) :
    SplitAt cf st (adopt (setPrev (st.alloc cf) n.next st.fresh) st.fresh (xs ++ ys) l r) l r x y
      key sk a o b u₁ q u₂ low us c ks₁ ks₂ vs₁ vs₂ (Block.content (block x))
      (Block.content (block y)) := by
  obtain ⟨hxs, hxp, hxl, hxn⟩ := hx
  obtain ⟨hys, hyp, hyl, hyn⟩ := hy
  have hne : q ≠ st.fresh := fun he ↦ h.pend.fresh_notMem.2.1 (he ▸ mem_nodes_middle)
  have hend : ∀ {v : ℤ}, v ∈ low → v ≠ n.next := fun hv ↦ by
    rw [h.next]
    refine ne_headD (fun hm ↦ (h.pend.low_notMem hv).1 ?_)
      (h.pend.alloc.ne_invalid hcf (List.mem_append_left _ hv))
    simp [hm]
  have hhalves := halves_parent h (S := setPrev (st.alloc cf) n.next st.fresh)
    (fun v ↦ content_setPrev.trans content_alloc) (fun v ↦ par_setPrev.trans par_alloc)
    (fun v hv hi ↦ ?_) hxs hxp hys hvals (hcut.vals_append ▸ .refl _)
  · refine ⟨h.pend, h.place, by simp, hhalves, ?_, Or.inl ⟨hxs, hys, hyp⟩, ?_,
      fun u ↦ hcut.innerOk_left hcf, fun u ↦ hcut.innerOk_right hcf, fun v ↦ ?_, ?_⟩
    · rw [hxs, hys]
      refine linked_right (linked_row h) (nodup_row h) (invalid_notMem h hcf) ?_ ?_ fun v hq hf hi ↦ ?_
      · rw [links_pending, hxs, hys, if_neg hne, if_pos rfl, hxl, hxn, h.prev]
      · rw [links_pending, hys, if_pos rfl, hyl, hyn, h.next]
      · rw [← h.next]
        exact links_split (fun v hv ↦ by rw [links_setPrev hv, links_alloc]) (hend h.left_mem)
          (hend h.right_mem) (hxs ▸ hq) (hys ▸ hf) hi
    · rw [hxs, hys, row_eq hhalves.old.1, row_eq hhalves.new.1]
      exact hcut.weave_eq
    · exact iff_of_eq (congrArg (v ∈ ·) hcut.vals_append)
    · refine isSome_of_content (c := c) ?_
      rw [content_adopt, content_pending, if_neg h.ne.2, if_neg h.ne.1, content_setPrev,
        content_alloc]
      have hc := h.place.content
      rwa [content_pending, if_neg h.ne.2, if_neg h.ne.1] at hc
  · rw [disk_setPrev, alloc_disk]
    rw [h.next]
    exact ne_headD (fun hm ↦ hv (List.mem_append_right _ hm)) hi

theorem splitLeft (hcf : Sized cf)
    (hcut : Cut cf (ks₁ ++ key :: ks₂) (vs₁ ++ l.self :: r.self :: vs₂) sk (block x) (block y) m)
    (hx : x.self = st.fresh ∧ x.parent = invalidOffset ∧ x.prev = n.prev ∧ x.next = q)
    (hy : y.self = q ∧ y.parent = n.parent ∧ y.prev = st.fresh ∧ y.next = n.next)
    (hvals : (block x).vals = xs ++ l.self :: r.self :: ys) :
    SplitAt cf st (adopt (setNext (st.alloc cf) n.prev st.fresh) st.fresh (xs ++ ys) l r) l r x y
      key sk a o b u₁ q u₂ low us c ks₁ ks₂ vs₁ vs₂ (Block.content (block y))
      (Block.content (block x)) := by
  obtain ⟨hxs, hxp, hxl, hxn⟩ := hx
  obtain ⟨hys, hyp, hyl, hyn⟩ := hy
  have hne : q ≠ st.fresh := fun he ↦ h.pend.fresh_notMem.2.1 (he ▸ mem_nodes_middle)
  have hxy : x.self ≠ y.self := by rw [hxs, hys]; exact hne.symm
  have hend : ∀ {v : ℤ}, v ∈ low → v ≠ n.prev := fun hv ↦ by
    rw [h.prev]
    refine ne_getLastD (fun hm ↦ (h.pend.low_notMem hv).1 ?_)
      (h.pend.alloc.ne_invalid hcf (List.mem_append_left _ hv))
    simp [hm]
  have hperm : ((block y).vals ++ (block x).vals).Perm (vs₁ ++ l.self :: r.self :: vs₂) :=
    hcut.vals_append ▸ List.perm_append_comm
  have hhalves := halves_parent h (S := setNext (st.alloc cf) n.prev st.fresh)
    (fun v ↦ content_setNext.trans content_alloc) (fun v ↦ par_setNext.trans par_alloc)
    (fun v hv hi ↦ ?_) hys hyp hxs hvals hperm
  · rw [← pending_comm hxy] at hhalves
    refine ⟨h.pend, h.place, by simp, hhalves, ?_, Or.inr ⟨hxs, hys, hxp⟩, ?_,
      fun u ↦ hcut.innerOk_right hcf, fun u ↦ hcut.innerOk_left hcf, fun v ↦ hperm.mem_iff, ?_⟩
    · rw [hxs, hys]
      refine linked_left (linked_row h) (nodup_row h) (invalid_notMem h hcf) ?_ ?_
        fun v hq hf hi ↦ ?_
      · rw [links_pending, hxs, hys, if_neg hne.symm, if_pos rfl, hxl, hxn, h.prev]
      · rw [links_pending, hys, if_pos rfl, hyl, hyn, h.next]
      · rw [← h.prev]
        exact links_split (fun v hv ↦ by rw [links_setNext hv, links_alloc]) (hend h.left_mem)
          (hend h.right_mem) (hxs ▸ hf) (hys ▸ hq) hi
    · rw [hxs, hys, row_eq hhalves.old.1, row_eq hhalves.new.1]
      exact hcut.weave_eq
    · refine isSome_of_content (c := c) ?_
      rw [content_adopt, content_pending, if_neg h.ne.2, if_neg h.ne.1, content_setNext,
        content_alloc]
      have hc := h.place.content
      rwa [content_pending, if_neg h.ne.2, if_neg h.ne.1] at hc
  · rw [disk_setNext, alloc_disk]
    rw [h.prev]
    exact ne_getLastD (fun hm ↦ hv (List.mem_append_left _ hm)) hi

section Runs

variable {build : Ptr → Ptr → ℤ → M ℤ} {k sp : ℕ} (hcf : Sized cf) (ih : Builds cf us build)
  (hrep : Rep t st [(mc, m'), (nc, n), (lc, l), (rc, r)]) (hm : New .nonLeaf m')
  (hk : k = ks₁.length + ks₂.length) (horder : k + 1 = cf.maxOrder) (hsp : sp = (k + 1) / 2)

include hcf hk horder hsp

/-- The two halves as the split routines leave them. -/
theorem cut_of_blocks (hlow : sp ≤ m + 1) (hhigh : m ≤ sp)
    (hkey : (splice (block n).keys ks₁.length [key] 0)[m]? = some sk)
    (hx : (block x).kind = .nonLeaf ∧ (block x).count = (m + 1 : ℕ) ∧
      (block x).keys = (splice (block n).keys ks₁.length [key] 0).take m ∧
      (block x).vals = (splice (block n).vals ks₁.length [l.self, r.self] 1).take (m + 1))
    (hy : (block y).kind = .nonLeaf ∧ (block y).count = (k + 1 - m : ℕ) ∧
      (block y).keys = (splice (block n).keys ks₁.length [key] 0).drop (m + 1) ∧
      (block y).vals = (splice (block n).vals ks₁.length [l.self, r.self] 1).drop (m + 1)) :
    Cut cf (ks₁ ++ key :: ks₂) (vs₁ ++ l.self :: r.self :: vs₂) sk (block x) (block y) m := by
  have hlen := h.length
  rw [h.splice_keys] at hkey hx hy
  rw [h.splice_vals] at hx hy
  obtain ⟨hxk, hxc, hxks, hxvs⟩ := hx
  obtain ⟨hyk, hyc, hyks, hyvs⟩ := hy
  have hK : (ks₁ ++ key :: ks₂).length = k + 1 := by
    rw [List.length_append, List.length_cons]
    omega
  refine ⟨?_, by rw [hK]; exact horder, hkey, by omega, by omega, ?_, ?_⟩
  · simp only [List.length_append, List.length_cons]
    omega
  · rw [Block.content, hxk, hxc, hxks, hxvs]
    rfl
  · rw [Block.content, hyk, hyc, hyks, hyvs, hK]
    rfl

include hrep hm ih

theorem splitLeft_run (hp : ks₁.length < sp) :
    Runs (do
      let splitKey ← nonLeafSplitLeft cf nc mc lc rc key ks₁.length sp
      build mc nc splitKey) t fun z t' ↦ z = 0 ∧ Grown cf (pending st l r) low
        (a ++ .node l.self :: .sep key :: .node r.self :: b)
        (st.level - ((u₁ ++ .node q :: u₂) :: us).length) t' := by
  have hl := h.pend.alloc.ne_invalid hcf (List.mem_append_left _ h.left_mem)
  have hr := h.pend.alloc.ne_invalid hcf (List.mem_append_left _ h.right_mem)
  have := hcf.order
  refine (nonLeafSplitLeft_run hrep (hk ▸ h.inner) hm h.fresh (h.beside_prev hcf) (fun v hv ↦ ?_)
    horder (by omega) hsp hp hl hr).seq ?_
  · rw [h.splice_vals] at hv
    exact h.fetchable_vals hcf hv
  rintro sk t₁ ⟨n', m', xs, ys, h₁, hvals, hbm, hbn, hkey⟩
  have hcut := cut_of_blocks h hcf hk horder hsp (x := m') (y := n') (by omega) le_rfl hkey
    (by rw [hbm]; exact ⟨rfl, rfl, rfl, rfl⟩) (by rw [hbn]; exact ⟨h.inner.type, rfl, rfl, rfl⟩)
  have hself := congrArg Block.self hbn
  have hparent := congrArg Block.parent hbn
  have hprev := congrArg Block.prev hbn
  have hnext := congrArg Block.next hbn
  refine (splitLeft h hcf hcut ?_ ⟨hself.trans h.self, hparent, hprev, hnext⟩ hvals).build_run
    hcf ih h₁.swap
  exact ⟨congrArg Block.self hbm, congrArg Block.parent hbm, congrArg Block.prev hbm,
    (congrArg Block.next hbm).trans h.self⟩

theorem splitRight1_run (hp : ks₁.length = sp) :
    Runs (do
      let splitKey ← nonLeafSplitRight1 cf nc mc lc rc key sp
      build nc mc splitKey) t fun z t' ↦ z = 0 ∧ Grown cf (pending st l r) low
        (a ++ .node l.self :: .sep key :: .node r.self :: b)
        (st.level - ((u₁ ++ .node q :: u₂) :: us).length) t' := by
  have hl := h.pend.alloc.ne_invalid hcf (List.mem_append_left _ h.left_mem)
  have hr := h.pend.alloc.ne_invalid hcf (List.mem_append_left _ h.right_mem)
  have := hcf.order
  refine (nonLeafSplitRight1_run hrep (hk ▸ h.inner) hm h.fresh (h.beside_next hcf)
    (fun v hv ↦ ?_) horder (by omega) hsp hl hr).seq ?_
  · rw [← hp, h.splice_vals] at hv
    exact h.fetchable_vals hcf hv
  rintro sk t₁ ⟨n', m', xs, ys, h₁, hvals, hbn, hbm, hkey⟩
  rw [← hp] at hkey hbn hbm
  have hsucc : ks₁.length - 1 + 1 = ks₁.length := by omega
  have hcut := cut_of_blocks h hcf hk horder hsp (x := n') (y := m') (m := ks₁.length - 1)
    (by omega) (by omega) hkey (by rw [hbn, hsucc]; exact ⟨h.inner.type, rfl, rfl, rfl⟩)
    (by rw [hbm, hsucc]; exact ⟨rfl, by dsimp only; omega, rfl, rfl⟩)
  refine (splitRight h hcf hcut ?_ ?_ hvals).build_run hcf ih h₁
  · exact ⟨(congrArg Block.self hbn).trans h.self, congrArg Block.parent hbn,
      congrArg Block.prev hbn, congrArg Block.next hbn⟩
  · exact ⟨congrArg Block.self hbm, congrArg Block.parent hbm,
      (congrArg Block.prev hbm).trans h.self, congrArg Block.next hbm⟩

theorem splitRight2_run (hp : sp < ks₁.length) :
    Runs (do
      let splitKey ← nonLeafSplitRight2 cf nc mc lc rc key ks₁.length sp
      build nc mc splitKey) t fun z t' ↦ z = 0 ∧ Grown cf (pending st l r) low
        (a ++ .node l.self :: .sep key :: .node r.self :: b)
        (st.level - ((u₁ ++ .node q :: u₂) :: us).length) t' := by
  have hl := h.pend.alloc.ne_invalid hcf (List.mem_append_left _ h.left_mem)
  have hr := h.pend.alloc.ne_invalid hcf (List.mem_append_left _ h.right_mem)
  have := hcf.order
  refine (nonLeafSplitRight2_run hrep (hk ▸ h.inner) hm h.fresh (h.beside_next hcf)
    (fun v hv ↦ ?_) horder (by omega) hsp hp (by omega) hl hr).seq ?_
  · rw [h.splice_vals] at hv
    exact h.fetchable_vals hcf hv
  rintro sk t₁ ⟨n', m', xs, ys, h₁, hvals, hbn, hbm, hkey⟩
  have hcut := cut_of_blocks h hcf hk horder hsp (x := n') (y := m') (by omega) le_rfl hkey
    (by rw [hbn]; exact ⟨h.inner.type, rfl, rfl, rfl⟩) (by rw [hbm]; exact ⟨rfl, rfl, rfl, rfl⟩)
  refine (splitRight h hcf hcut ?_ ?_ hvals).build_run hcf ih h₁
  · exact ⟨(congrArg Block.self hbn).trans h.self, congrArg Block.parent hbn,
      congrArg Block.prev hbn, congrArg Block.next hbn⟩
  · exact ⟨congrArg Block.self hbm, congrArg Block.parent hbm,
      (congrArg Block.prev hbm).trans h.self, congrArg Block.next hbm⟩

end Runs

theorem nonLeafInsert_run {build : Ptr → Ptr → ℤ → M ℤ} (hcf : Sized cf) (ih : Builds cf us build)
    (hrep : Rep t st [(nc, n), (lc, l), (rc, r)]) :
    Runs (nonLeafInsertWith cf build nc lc rc key) t fun z t' ↦ z = 0 ∧
      Grown cf (pending st l r) low (a ++ .node l.self :: .sep key :: .node r.self :: b)
        (st.level - ((u₁ ++ .node q :: u₂) :: us).length) t' := by
  have hcap := h.place.ok.cap
  rw [h.place.vals, List.length_append, List.length_cons] at hcap
  have hlen := h.length
  have hchildren := h.inner.children
  unfold nonLeafInsertWith
  refine hrep.node_bind mem₁ ?_
  rw [h.search]
  refine (assert_run (by simp; omega)).seq ?_
  rintro _ _ rfl
  refine hrep.node_bind mem₁ ?_
  dsimp only
  rw [show -(-(ks₁.length : ℤ) - 1) - 1 = ks₁.length by omega, hchildren]
  by_cases hfull : ((ks₁.length + ks₂.length : ℕ) : ℤ) + 1 = cf.maxOrder
  · rw [if_pos hfull]
    refine hrep.node_bind mem₁ ?_
    rw [hchildren]
    obtain ⟨sp, hsp⟩ : ∃ sp : ℕ, sp = (ks₁.length + ks₂.length + 1) / 2 := ⟨_, rfl⟩
    rw [show (((ks₁.length + ks₂.length : ℕ) : ℤ) + 1) / 2 = sp by omega]
    refine (hrep.nonLeafNew (by simp)).seq fun mc t₁ ⟨m', h₁, hm⟩ ↦ ?_
    rcases lt_trichotomy ks₁.length sp with hp | hp | hp
    · rw [if_pos (by omega)]
      exact splitLeft_run h hcf ih h₁ hm rfl hfull hsp hp
    · rw [if_neg (by omega), if_pos (by omega)]
      exact splitRight1_run h hcf ih h₁ hm rfl hfull hsp hp
    · rw [if_neg (by omega), if_neg (by omega)]
      exact splitRight2_run h hcf ih h₁ hm rfl hfull hsp hp
  · rw [if_neg hfull]
    exact h.simpleInsert_run hrep hcf (by omega)

end Halves

section Climb

variable {u : Row}

theorem nodup_before (hp : Pend cf st l r key a b o low us) :
    (nodes (a ++ .node o :: b)).Nodup ∧ l.self ≠ r.self := by
  have hnd := hp.nodup
  simp only [nodes_append, nodes_cons_node, nodes_cons_sep] at hnd ⊢
  refine ⟨?_, fun he ↦ ?_⟩
  · rcases hp.which with ⟨rfl, -⟩ | ⟨rfl, -⟩
    · exact hnd.sublist (((List.sublist_cons_self _ _).cons_cons _).append_left _)
    · exact hnd.sublist ((List.sublist_cons_self _ _).append_left _)
  · have hlr := (List.nodup_cons.mp hnd.of_append_right).1
    exact hlr (he ▸ List.mem_cons_self)

/-- The parent that either branch of `parent_node_build` fetches. -/
theorem parent_of_pend (hself : ∀ v bv, st.disk v = some bv → bv.self = v)
    (hp : Pend cf st l r key a b o low (u :: us)) :
    ∃ u₁ q u₂ c ks₁ ks₂ vs₁ vs₂ bq, u = u₁ ++ .node q :: u₂ ∧ st.disk q = some bq ∧
      (∀ n, block n = bq → Parent cf st l r key a b o low us u₁ q u₂ c ks₁ ks₂ vs₁ vs₂ n) ∧
      (l.parent = q ∧ r.parent = invalidOffset ∨ r.parent = q) := by
  obtain ⟨hnd, hlr⟩ := nodup_before hp
  obtain ⟨u₁, q, u₂, c, ks₁, ks₂, vs₁, vs₂, rfl, hplace⟩ := hp.upper.locate hnd
  have hql : q ≠ l.self := fun he ↦
    (hp.low_notMem (hp.sub (by simp : l.self ∈ _))).1 (he ▸ mem_nodes_middle)
  have hqr : q ≠ r.self := fun he ↦
    (hp.low_notMem (hp.sub (by simp : r.self ∈ _))).1 (he ▸ mem_nodes_middle)
  have hc := hplace.content
  rw [content_pending, if_neg hqr, if_neg hql] at hc
  obtain ⟨bq, hbq⟩ := Option.isSome_iff_exists.mp (isSome_of_content hc)
  obtain ⟨-, -, hlink, -⟩ := hp.upper
  rw [nodes_append, nodes_cons_node] at hlink
  have hmid := hlink.middle
  rw [links_pending, if_neg hqr, if_neg hql, links, hbq, Option.map_some, Option.some.injEq] at hmid
  refine ⟨u₁, q, u₂, c, ks₁, ks₂, vs₁, vs₂, bq, rfl, hbq, ?_, ?_⟩
  · rintro n rfl
    exact ⟨hp, hplace, hbq, hself q _ hbq, congrArg Prod.fst hmid, congrArg Prod.snd hmid⟩
  · have hpar := hplace.par o (by rw [hplace.vals]; simp)
    rcases hp.which with ⟨rfl, hr⟩ | ⟨rfl, -⟩
    · rw [par_pending, if_neg hlr, if_pos rfl, Option.some.injEq] at hpar
      exact Or.inl ⟨hpar, hr⟩
    · rw [par_pending, if_pos rfl, Option.some.injEq] at hpar
      exact Or.inr hpar

theorem builds_cons (hcf : Sized cf) {fuel : ℕ} (ih : Builds cf us (parentNodeBuild cf fuel)) :
    Builds cf (u :: us) (parentNodeBuild cf (fuel + 1)) := by
  intro t st lc rc l r key a b o low hrep hp
  obtain ⟨u₁, q, u₂, c, ks₁, ks₂, vs₁, vs₂, bq, rfl, hbq, hparent, hwhich⟩ :=
    parent_of_pend hrep.self hp
  have hmem : q ∈ low ++ Shape.offsets ((u₁ ++ .node q :: u₂) :: us) :=
    List.mem_append_right _ (List.mem_append_left _ mem_nodes_middle)
  have hq := hp.alloc.ne_invalid hcf hmem
  have haway : Away [(lc, l), (rc, r)] q := by
    have hl := (hp.low_notMem (hp.sub (by simp : l.self ∈ _))).1
    have hr := (hp.low_notMem (hp.sub (by simp : r.self ∈ _))).1
    simp only [away_cons, away_nil, and_true]
    exact ⟨fun he ↦ hl (he ▸ mem_nodes_middle), fun he ↦ hr (he ▸ mem_nodes_middle)⟩
  have hinsert : Runs (do
      let c ← deref (← nodeFetch q)
      nonLeafInsertWith cf (parentNodeBuild cf fuel) c lc rc key) t fun z t' ↦ z = 0 ∧
        Grown cf (pending st l r) low (a ++ .node l.self :: .sep key :: .node r.self :: b)
          (st.level - ((u₁ ++ .node q :: u₂) :: us).length) t' := by
    refine (hrep.fetch hq hbq haway (by simp)).seq ?_
    rintro _ t₁ ⟨nc, n, rfl, hn, h₁⟩
    exact deref_bind (nonLeafInsert_run (hparent n hn) hcf ih h₁)
  unfold parentNodeBuild
  refine hrep.node_bind mem₁ (hrep.node_bind mem₂ ?_)
  rcases hwhich with ⟨hl, hr⟩ | hr
  · rw [if_neg (by rw [hl]; tauto), if_pos hr, hl]
    exact hinsert
  · rw [if_neg (by rw [hr]; tauto), if_neg (hr ▸ hq), hr]
    exact hinsert

/-- A split that has to be told to the levels above it ends well, whatever their number. -/
theorem builds (hcf : Sized cf) {fuel : ℕ} (hfuel : us.length < fuel) :
    Builds cf us (parentNodeBuild cf fuel) := by
  induction us generalizing fuel with
  | nil =>
    obtain ⟨fuel, rfl⟩ : ∃ f, fuel = f + 1 := ⟨fuel - 1, by simp at hfuel; omega⟩
    exact builds_root hcf fuel
  | cons u us ih =>
    rw [List.length_cons] at hfuel
    obtain ⟨fuel, rfl⟩ : ∃ f, fuel = f + 1 := ⟨fuel - 1, by omega⟩
    exact builds_cons hcf (ih (by omega))

end Climb

end MqssdModel.BPlusTree.InsertSplit
