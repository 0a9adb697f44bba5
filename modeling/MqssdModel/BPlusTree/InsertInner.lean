import MqssdModel.BPlusTree.InsertCascade

namespace MqssdModel.BPlusTree.InsertInner

open Data.Arrays Data.Rows Data.Chain Data.TotalRun Machine Caching Routines Insertion InnerSpecs
  Views Shape Allocation Pending Splitting Steps Search InsertCascade

/-- The parent `q` of the node that `l` and `r` replace is in a cache, as `n`. -/
structure Parent (cf : Config) (st : Store) (l r : Node) (key : ℤ) (a b : Row) (o : ℤ)
    (low : List ℤ) (us : List Row) (u₁ : Row) (q : ℤ) (u₂ : Row) (c : Content)
    (ks₁ ks₂ vs₁ vs₂ : List ℤ) (n : Node) : Prop where
  pend : Pend cf st l r key a b o low ((u₁ ++ .node q :: u₂) :: us)
  place : Place cf (pending st l r) a o b u₁ q u₂ c ks₁ ks₂ vs₁ vs₂
  disk : st.disk q = some (block n)
  self : n.self = q
  prev : n.prev = (nodes u₁).getLastD invalidOffset
  next : n.next = (nodes u₂).headD invalidOffset

variable {cf : Config} {t : Tree} {st : Store} {lc rc nc : Ptr} {l r n : Node} {key o q : ℤ}
  {a b u₁ u₂ : Row} {low : List ℤ} {us : List Row} {ks₁ ks₂ vs₁ vs₂ : List ℤ} {c : Content}

namespace Parent

variable (h : Parent cf st l r key a b o low us u₁ q u₂ c ks₁ ks₂ vs₁ vs₂ n)

include h

theorem left_mem : l.self ∈ low := h.pend.sub (by simp)

theorem right_mem : r.self ∈ low := h.pend.sub (by simp)

theorem rest {v : ℤ} (hv : v ∈ nodes a ++ nodes b) : v ∈ low ∧ v ≠ l.self ∧ v ≠ r.self := by
  have hnd := h.pend.nodup
  have hsub := h.pend.sub
  simp only [nodes_append, nodes_cons_node, nodes_cons_sep] at hnd hsub
  simp only [List.nodup_middle, List.nodup_cons, List.mem_append, List.mem_cons, not_or] at hnd
  rw [List.mem_append] at hv
  refine ⟨hsub ?_, ?_, ?_⟩
  · simp only [List.mem_append, List.mem_cons]
    tauto
  · rintro rfl
    tauto
  · rintro rfl
    tauto

theorem mem_low {v : ℤ} (hv : v ∈ vs₁ ++ vs₂) : v ∈ low ∧ v ≠ l.self ∧ v ≠ r.self := by
  refine h.rest ?_
  simp only [h.place.left, h.place.right, nodes_append, nodes_lefts h.place.left_length,
    nodes_rights h.place.right_length, List.mem_append] at hv ⊢
  tauto

theorem mem_expand {v : ℤ} (hv : v ∈ nodes (expand (row (pending st l r)) u₁) ++
    nodes (expand (row (pending st l r)) u₂)) : v ∈ low ∧ v ≠ l.self ∧ v ≠ r.self := by
  refine h.rest ?_
  simp only [h.place.left, h.place.right, nodes_append, List.mem_append] at hv ⊢
  tauto

theorem row_ne {v : ℤ} (hv : v ∈ nodes (u₁ ++ .node q :: u₂)) : v ≠ l.self ∧ v ≠ r.self :=
  ⟨fun he ↦ (h.pend.low_notMem h.left_mem).1 (he ▸ hv),
    fun he ↦ (h.pend.low_notMem h.right_mem).1 (he ▸ hv)⟩

theorem ne : q ≠ l.self ∧ q ≠ r.self := h.row_ne mem_nodes_middle

theorem content_eq : Block.content (block n) = c := by
  have hc := h.place.content
  rw [content_pending, if_neg h.ne.2, if_neg h.ne.1, Views.content, h.disk] at hc
  exact Option.some.inj hc

theorem keys : (block n).keys = ks₁ ++ ks₂ :=
  (congrArg Content.keys h.content_eq).trans h.place.keys

theorem vals : (block n).vals = vs₁ ++ o :: vs₂ :=
  (congrArg Content.vals h.content_eq).trans h.place.vals

theorem length : vs₁.length + 1 + vs₂.length = ks₁.length + ks₂.length + 1 := by
  have := h.place.left_length
  have := h.place.right_length
  omega

theorem inner : Inner n (ks₁.length + ks₂.length) := by
  have hok := h.place.ok
  refine Inner.of_block ((congrArg Content.kind h.content_eq).trans hok.kind)
    (((congrArg Content.count h.content_eq).trans hok.count).trans ?_)
  rw [h.place.vals, List.length_append, List.length_cons]
  have := h.length
  omega

theorem splice_keys : splice (block n).keys ks₁.length [key] 0 = ks₁ ++ key :: ks₂ := by
  rw [h.keys]
  exact splice_append ks₁ [key] [] ks₂

theorem splice_vals (xs : List ℤ) :
    splice (block n).vals ks₁.length xs 1 = vs₁ ++ (xs ++ vs₂) := by
  rw [h.vals, h.place.left_length]
  exact splice_append vs₁ xs [o] vs₂

theorem search : keyBinarySearch n key = -ks₁.length - 1 := by
  have hs := h.pend.sorted
  simp only [h.place.left, h.place.right, seps_append, seps_cons_node, seps_cons_sep,
    seps_lefts h.place.left_length, seps_rights h.place.right_length, List.append_assoc] at hs
  have hs' := (List.pairwise_append.mp hs).2.1
  refine search_absent ?_ h.keys (fun k hk ↦ ?_) fun k hk ↦ ?_
  · rw [keyCount, isLeaf, h.inner.type]
    have := h.inner.children
    simp only [reduceCtorEq, decide_false, Bool.false_eq_true, if_false]
    omega
  · exact (List.pairwise_append.mp hs').2.2 k hk key List.mem_cons_self
  · exact List.rel_of_pairwise_cons (List.pairwise_append.mp hs').2.1 (List.mem_append_left _ hk)

theorem fresh : Away [(nc, n), (lc, l), (rc, r)] st.fresh := by
  obtain ⟨hlow, hrow, -⟩ := h.pend.fresh_notMem
  simp only [away_cons, away_nil, and_true, h.self]
  exact ⟨fun he ↦ hrow (he ▸ mem_nodes_middle), fun he ↦ hlow (he ▸ h.left_mem),
    fun he ↦ hlow (he ▸ h.right_mem)⟩

theorem fetchable_vals (hcf : Sized cf) {v : ℤ} (hv : v ∈ vs₁ ++ vs₂) :
    Fetchable st [(nc, n), (lc, l), (rc, r)] v := by
  obtain ⟨hlow, hl, hr⟩ := h.mem_low hv
  have hpar : par (pending st l r) v = some q := by
    refine h.place.par v ?_
    rw [h.place.vals]
    simp only [List.mem_append, List.mem_cons] at hv ⊢
    tauto
  rw [par_pending, if_neg hr, if_neg hl, par, Option.map_eq_some_iff] at hpar
  obtain ⟨bv, hb, -⟩ := hpar
  refine ⟨⟨h.pend.alloc.ne_invalid hcf (List.mem_append_left _ hlow), by simp [hb]⟩, ?_, ?_⟩
  · exact fun he ↦ h.pend.fresh_notMem.1 (he ▸ hlow)
  · simp only [away_cons, away_nil, and_true, h.self]
    exact ⟨fun he ↦ (h.pend.low_notMem hlow).1 (he ▸ mem_nodes_middle), hl.symm, hr.symm⟩

theorem others_ne {v : ℤ} (hv : v ∈ nodes u₁ ++ nodes u₂) :
    v ∈ nodes (u₁ ++ .node q :: u₂) ∧ v ≠ q := by
  have hm : v ∈ nodes (u₁ ++ .node q :: u₂) := by
    simp only [nodes_append, nodes_cons_node, List.mem_append, List.mem_cons] at hv ⊢
    tauto
  have hn := h.pend.nodup_all.of_append_right.of_append_left
  rw [nodes_append, nodes_cons_node, List.nodup_middle, List.nodup_cons] at hn
  exact ⟨hm, fun he ↦ hn.1 (he ▸ hv)⟩

theorem fetchable_row (hcf : Sized cf) {v : ℤ} (hv : v ∈ nodes u₁ ++ nodes u₂) :
    Fetchable st [(nc, n), (lc, l), (rc, r)] v := by
  obtain ⟨hm, hq⟩ := h.others_ne hv
  obtain ⟨hl, hr⟩ := h.row_ne hm
  obtain ⟨-, hin, -, -⟩ := h.pend.upper
  obtain ⟨cv, hc, -, -⟩ := hin v hm
  rw [content_pending, if_neg hr, if_neg hl, Views.content, Option.map_eq_some_iff] at hc
  obtain ⟨bv, hb, -⟩ := hc
  refine ⟨⟨h.pend.alloc.ne_invalid hcf ?_, by simp [hb]⟩, ?_, ?_⟩
  · exact List.mem_append_right _ (List.mem_append_left _ hm)
  · exact fun he ↦ h.pend.fresh_notMem.2.1 (he ▸ hm)
  · simp only [away_cons, away_nil, and_true, h.self]
    exact ⟨hq.symm, hl.symm, hr.symm⟩

theorem beside_prev (hcf : Sized cf) : Beside st [(nc, n), (lc, l), (rc, r)] n.prev := by
  rw [h.prev]
  exact getLastD_mem.symm.imp_right fun hm ↦ h.fetchable_row hcf (List.mem_append_left _ hm)

theorem beside_next (hcf : Sized cf) : Beside st [(nc, n), (lc, l), (rc, r)] n.next := by
  rw [h.next]
  exact headD_mem.symm.imp_right fun hm ↦ h.fetchable_row hcf (List.mem_append_right _ hm)

theorem par_self : par (pending st l r) q = some n.parent := by
  rw [par_pending, if_neg h.ne.2, if_neg h.ne.1, par, h.disk]
  rfl

theorem links_self : links (pending st l r) q = some (n.prev, n.next) := by
  rw [links_pending, if_neg h.ne.2, if_neg h.ne.1, links, h.disk]
  rfl

section Simple

variable {n' : Node} (hn : block n' = { block n with
  count := (ks₁.length + ks₂.length + 2 : ℕ)
  keys := ks₁ ++ key :: ks₂
  vals := vs₁ ++ l.self :: r.self :: vs₂ })

include hn

theorem content_simple {v : ℤ} : content ((adopt st q [] l r).write (block n')) v =
    if v = q then some ⟨.nonLeaf, (ks₁.length + ks₂.length + 2 : ℕ), ks₁ ++ key :: ks₂,
      vs₁ ++ l.self :: r.self :: vs₂⟩ else content (pending st l r) v := by
  have hkind : (block n).kind = .nonLeaf := h.inner.type
  rw [content_write, content_adopt, hn, block_self, h.self, Block.content, hkind]

theorem links_simple {v : ℤ} : links ((adopt st q [] l r).write (block n')) v =
    links (pending st l r) v := by
  rw [links_write, links_adopt, hn, block_self, h.self]
  by_cases hv : v = q
  · rw [if_pos hv, hv, h.links_self]
    rfl
  · rw [if_neg hv]

theorem par_simple {v : ℤ} : par ((adopt st q [] l r).write (block n')) v =
    if v = r.self ∨ v = l.self then some q else par (pending st l r) v := by
  rw [par_write, par_adopt, hn, block_self, h.self, block_parent, if_neg List.not_mem_nil]
  by_cases hv : v = q
  · rw [if_pos hv, hv, if_neg (by have := h.ne; tauto), h.par_self]
  · rw [if_neg hv]
    by_cases hlr : v = r.self ∨ v = l.self
    · rw [if_pos hlr, if_pos hlr]
    · rw [not_or] at hlr
      rw [if_neg (by tauto), if_neg (by tauto), par_pending, if_neg hlr.1, if_neg hlr.2]

theorem innerAt_simple (hroom : (ks₁.length + ks₂.length + 1 : ℕ) < cf.maxOrder) :
    InnerAt cf ((adopt st q [] l r).write (block n')) (u₁ ++ .node q :: u₂) q := by
  have hlen := h.length
  have hok := h.place.ok
  refine ⟨_, (h.content_simple hn).trans (if_pos rfl), ⟨rfl, ?_, ?_, ?_, ?_, fun hu ↦ ?_⟩, ?_⟩
  · simp only [List.length_append, List.length_cons]
    omega
  · simp only [List.length_append, List.length_cons]
    omega
  · simp only [List.length_append, List.length_cons]
    omega
  · simp only [List.length_append, List.length_cons]
    omega
  · have hhalf := hok.half hu
    rw [h.place.vals] at hhalf
    simp only [List.length_append, List.length_cons] at hhalf ⊢
    omega
  · intro v hv
    rw [h.par_simple hn]
    by_cases hlr : v = r.self ∨ v = l.self
    · rw [if_pos hlr]
    · rw [if_neg hlr]
      refine h.place.par v ?_
      rw [h.place.vals]
      simp only [List.mem_append, List.mem_cons] at hv ⊢
      tauto

theorem upper_simple (hroom : (ks₁.length + ks₂.length + 1 : ℕ) < cf.maxOrder) :
    Upper cf ((adopt st q [] l r).write (block n'))
      (a ++ .node l.self :: .sep key :: .node r.self :: b) ((u₁ ++ .node q :: u₂) :: us) := by
  obtain ⟨-, hin, hlink, hup⟩ := h.pend.upper
  have hcont {v : ℤ} := h.content_simple hn (v := v)
  have hpar {v : ℤ} (hv : v ≠ l.self ∧ v ≠ r.self) :
      par ((adopt st q [] l r).write (block n')) v = par (pending st l r) v := by
    rw [h.par_simple hn, if_neg (by tauto)]
  have hup' : Upper cf ((adopt st q [] l r).write (block n')) (u₁ ++ .node q :: u₂) us := by
    refine hup.congr rfl (fun v hv ↦ ?_) fun v hv ↦ hpar (h.row_ne hv)
    have hq : v ≠ q := fun he ↦ h.pend.row_notMem (he ▸ mem_nodes_middle) hv
    have hl : v ≠ l.self := fun he ↦ (h.pend.low_notMem h.left_mem).2 (he ▸ hv)
    have hr : v ≠ r.self := fun he ↦ (h.pend.low_notMem h.right_mem).2 (he ▸ hv)
    have hq' : v ≠ (block n').self := by rwa [hn, block_self, h.self]
    rw [disk_pending hl hr]
    exact (Function.update_of_ne hq' _ _).trans (disk_adopt hl hr List.not_mem_nil)
  have hrebuilt := Upper.rebuild [.node q] [.node q] hin (List.cons_ne_nil _ _)
    (fun v hv ↦ hcont.trans (if_neg (h.others_ne hv).2)) (fun v hv ↦ hpar (h.mem_expand hv).2)
    (fun v hv ↦ ?_) (hlink.congr fun v _ ↦ h.links_simple hn) hup'
  · rw [expand_cons_node, row_eq (hcont.trans (if_pos rfl)), expand_nil, List.append_nil,
      weave_pair h.place.left_length h.place.right_length] at hrebuilt
    rw [h.place.left, h.place.right]
    simpa using hrebuilt
  · obtain rfl : v = q := by simpa using hv
    exact h.innerAt_simple hn hroom

theorem grown_simple (hroom : (ks₁.length + ks₂.length + 1 : ℕ) < cf.maxOrder)
    (hrep : Rep t ((adopt st q [] l r).write (block n')) []) :
    Grown cf (pending st l r) low (a ++ .node l.self :: .sep key :: .node r.self :: b)
      (st.level - ((u₁ ++ .node q :: u₂) :: us).length) t := by
  have hhead : header ((adopt st q [] l r).write (block n')) = header st := by
    rw [header_write, header_adopt]
  refine ⟨_, _, hrep, h.upper_simple hn hroom, h.pend.alloc.of_header hhead,
    ⟨fun v hv ↦ ?_, fun v _ ↦ h.links_simple hn, fun v hv hw ↦ ?_,
      longer_of_eq _ (congrArg Header.fileSize hhead)⟩, ?_⟩
  · have hq : v ≠ q := fun he ↦ (h.pend.low_notMem hv).1 (he ▸ mem_nodes_middle)
    rw [h.content_simple hn, if_neg hq]
  · rw [h.par_simple hn, if_neg]
    rintro (rfl | rfl)
    · exact hw (by simp)
    · exact hw (by simp)
  · rw [show ((adopt st q [] l r).write (block n')).level = st.level from
      congrArg Header.level hhead]

end Simple

theorem simpleInsert_run (hrep : Rep t st [(nc, n), (lc, l), (rc, r)]) (hcf : Sized cf)
    (hroom : (ks₁.length + ks₂.length + 1 : ℕ) < cf.maxOrder) :
    Runs (do
      nonLeafSimpleInsert cf nc lc rc key ks₁.length
      nodeFlush (some nc)
      return (0 : ℤ)) t fun x t' ↦ x = 0 ∧ Grown cf (pending st l r) low
        (a ++ .node l.self :: .sep key :: .node r.self :: b)
        (st.level - ((u₁ ++ .node q :: u₂) :: us).length) t' := by
  have hl := h.pend.alloc.ne_invalid hcf (List.mem_append_left _ h.left_mem)
  have hr := h.pend.alloc.ne_invalid hcf (List.mem_append_left _ h.right_mem)
  refine (nonLeafSimpleInsert_run hrep h.inner (Nat.le_add_right _ _) (by omega) hl hr).seq ?_
  rintro _ t₁ ⟨n', h₁, hn⟩
  refine h₁.flush.seq fun _ t₂ h₂ ↦ ?_
  rw [h.splice_keys, h.splice_vals] at hn
  rw [h.self] at h₂
  exact runs_pure ⟨rfl, h.grown_simple hn hroom h₂⟩

end Parent

end MqssdModel.BPlusTree.InsertInner
