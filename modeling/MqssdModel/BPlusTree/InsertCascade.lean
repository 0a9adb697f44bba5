import MqssdModel.BPlusTree.Search
import MqssdModel.BPlusTree.Splitting

namespace MqssdModel.BPlusTree.InsertCascade

open Data.Arrays Data.Rows Data.Chain Data.TotalRun Machine Caching Routines Insertion InnerSpecs
  Views Shape Allocation Pending Splitting Steps Search

/-- The nodes `l` and `r` in the caches are to take the place of the node `o`, one of them, on
its level; `low` are the offsets of this level and those below. -/
structure Pend (cf : Config) (st : Store) (l r : Node) (key : ℤ) (a b : Row) (o : ℤ)
    (low : List ℤ) (us : List Row) : Prop where
  upper : Upper cf (pending st l r) (a ++ .node o :: b) us
  which : o = l.self ∧ r.parent = invalidOffset ∨ o = r.self ∧ l.parent = invalidOffset
  sorted : (seps (a ++ .node l.self :: .sep key :: .node r.self :: b)).Pairwise (· < ·)
  nodup : (nodes (a ++ .node l.self :: .sep key :: .node r.self :: b)).Nodup
  sub : nodes (a ++ .node l.self :: .sep key :: .node r.self :: b) ⊆ low
  alloc : Alloc cf st (low ++ offsets us)
  present : (st.disk o).isSome

/-- The levels above the row `w` are in order, and below it `st` has been kept; `d` is the
level of `w`. -/
def Grown (cf : Config) (st : Store) (low : List ℤ) (w : Row) (d : ℤ) (t : Tree) : Prop :=
  ∃ st' us, Rep t st' [] ∧ Upper cf st' w us ∧ Alloc cf st' (low ++ offsets us) ∧
    Kept cf us.length st st' low w ∧ st'.level - us.length = d

/-- What is to be shown of `parent_node_build`. -/
def Builds (cf : Config) (us : List Row) (build : Ptr → Ptr → ℤ → M ℤ) : Prop :=
  ∀ {t : Tree} {st : Store} {lc rc : Ptr} {l r : Node} {key : ℤ} {a b : Row} {o : ℤ}
    {low : List ℤ}, Rep t st [(lc, l), (rc, r)] → Pend cf st l r key a b o low us →
    Runs (build lc rc key) t fun x t' ↦ x = 0 ∧ Grown cf (pending st l r) low
      (a ++ .node l.self :: .sep key :: .node r.self :: b) (st.level - us.length) t'

/-- The parent `q` of `o` has been split into `x` and `y`, with `l` and `r` in the place of `o`. -/
structure SplitAt (cf : Config) (st st₂ : Store) (l r x y : Node) (key sk : ℤ) (a : Row) (o : ℤ)
    (b u₁ : Row) (q : ℤ) (u₂ : Row) (low : List ℤ) (us : List Row) (c : Content)
    (ks₁ ks₂ vs₁ vs₂ : List ℤ) (cq cn : Content) : Prop where
  pend : Pend cf st l r key a b o low ((u₁ ++ .node q :: u₂) :: us)
  place : Place cf (pending st l r) a o b u₁ q u₂ c ks₁ ks₂ vs₁ vs₂
  header : header st₂ = header (st.alloc cf)
  halves : Halves (pending st l r) (pending st₂ x y) (nodes u₁ ++ nodes u₂) q st.fresh cq cn
  linked : Linked (links (pending st₂ x y)) invalidOffset
    (nodes u₁ ++ x.self :: y.self :: nodes u₂) invalidOffset
  offsets : x.self = q ∧ y.self = st.fresh ∧ y.parent = invalidOffset ∨
    x.self = st.fresh ∧ y.self = q ∧ x.parent = invalidOffset
  rows : row (pending st₂ x y) x.self ++ .sep sk :: row (pending st₂ x y) y.self =
    weave (ks₁ ++ key :: ks₂) (vs₁ ++ l.self :: r.self :: vs₂)
  old : ∀ u, InnerOk cf u cq
  new : ∀ u, InnerOk cf u cn
  vals : ∀ v, v ∈ cq.vals ++ cn.vals ↔ v ∈ vs₁ ++ l.self :: r.self :: vs₂
  present : (st₂.disk q).isSome

variable {cf : Config} {t : Tree} {st st₂ : Store} {lc rc xc yc : Ptr} {l r x y : Node}
  {key sk o q : ℤ} {a b u u₁ u₂ : Row} {low : List ℤ} {us : List Row}
  {build : Ptr → Ptr → ℤ → M ℤ} {ks₁ ks₂ vs₁ vs₂ : List ℤ} {c cq cn : Content}

namespace Pend

variable (h : Pend cf st l r key a b o low (u :: us))

include h

theorem nodup_all : (low ++ (nodes u ++ Shape.offsets us)).Nodup := h.alloc.nodup.of_append_left

theorem low_notMem {v : ℤ} (hv : v ∈ low) : v ∉ nodes u ∧ v ∉ Shape.offsets us := by
  have hd := List.disjoint_of_nodup_append h.nodup_all
  exact ⟨fun hm ↦ hd hv (List.mem_append_left _ hm), fun hm ↦ hd hv (List.mem_append_right _ hm)⟩

theorem row_notMem {v : ℤ} (hv : v ∈ nodes u) : v ∉ Shape.offsets us :=
  List.disjoint_of_nodup_append h.nodup_all.of_append_right hv

theorem fresh_notMem : st.fresh ∉ low ∧ st.fresh ∉ nodes u ∧ st.fresh ∉ Shape.offsets us := by
  have hf := h.alloc.fresh_notMem
  simpa only [Shape.offsets, List.flatMap_cons, List.mem_append, not_or] using hf

end Pend

/-- The row with `l` and `r` in the place of a child of `q`. -/
theorem weave_pair (h₁ : ks₁.length = vs₁.length) (h₂ : ks₂.length = vs₂.length) {k v v' : ℤ} :
    weave (ks₁ ++ k :: ks₂) (vs₁ ++ v :: v' :: vs₂) =
      lefts ks₁ vs₁ ++ .node v :: .sep k :: .node v' :: rights ks₂ vs₂ := by
  rw [weave_append h₁, weave, weave_cons h₂]

namespace SplitAt

variable (h : SplitAt cf st st₂ l r x y key sk a o b u₁ q u₂ low us c ks₁ ks₂ vs₁ vs₂ cq cn)

include h

/-- The children of both halves lie on the level below. -/
theorem mem_nodes {v : ℤ} (hv : v ∈ cq.vals ++ cn.vals) :
    v ∈ nodes (a ++ .node l.self :: .sep key :: .node r.self :: b) := by
  have hv' := (h.vals v).mp hv
  simp only [h.place.left, h.place.right, nodes_append, nodes_cons_node, nodes_cons_sep,
    nodes_lefts h.place.left_length, nodes_rights h.place.right_length, List.mem_append,
    List.mem_cons] at hv' ⊢
  tauto

theorem mem_low {v : ℤ} (hv : v ∈ cq.vals ++ cn.vals) : v ∈ low := h.pend.sub (h.mem_nodes hv)

theorem others {v : ℤ} (hv : v ∈ nodes u₁ ++ nodes u₂) :
    v ≠ q ∧ v ≠ st.fresh ∧ v ∈ nodes (u₁ ++ .node q :: u₂) := by
  have hm : v ∈ nodes (u₁ ++ .node q :: u₂) := by
    simp only [nodes_append, nodes_cons_node, List.mem_append, List.mem_cons] at hv ⊢
    tauto
  have hn := h.pend.nodup_all.of_append_right.of_append_left
  rw [nodes_append, nodes_cons_node, List.nodup_middle, List.nodup_cons] at hn
  exact ⟨fun he ↦ hn.1 (he ▸ hv), fun he ↦ h.pend.fresh_notMem.2.1 (he ▸ hm), hm⟩

theorem content_others {v : ℤ} (hv : v ∈ nodes u₁ ++ nodes u₂) :
    content (pending st₂ x y) v = content (pending st l r) v :=
  h.halves.content v (h.others hv).1 (h.others hv).2.1

theorem expand_eq : expand (row (pending st₂ x y))
      (u₁ ++ .node x.self :: .sep sk :: .node y.self :: u₂) =
    a ++ .node l.self :: .sep key :: .node r.self :: b := by
  have h₁ : expand (row (pending st₂ x y)) u₁ = expand (row (pending st l r)) u₁ :=
    expand_congr fun o ho ↦ row_congr (h.content_others (List.mem_append_left _ ho))
  have h₂ : expand (row (pending st₂ x y)) u₂ = expand (row (pending st l r)) u₂ :=
    expand_congr fun o ho ↦ row_congr (h.content_others (List.mem_append_right _ ho))
  rw [expand_append, expand_cons_node, expand_cons_sep, expand_cons_node, h₁, h₂,
    ← List.cons_append, ← List.append_assoc (row _ x.self), h.rows, h.place.left, h.place.right,
    weave_pair h.place.left_length h.place.right_length]
  simp

theorem perm : (nodes u₁ ++ x.self :: y.self :: nodes u₂).Perm
    (st.fresh :: nodes (u₁ ++ .node q :: u₂)) := by
  rw [nodes_append, nodes_cons_node]
  rcases h.offsets with ⟨hx, hy, -⟩ | ⟨hx, hy, -⟩
  · rw [hx, hy]
    exact (List.Perm.append_left _ (.swap st.fresh q _)).trans List.perm_middle
  · rw [hx, hy]
    exact List.perm_middle

theorem mem_new {v : ℤ} (hv : v ∈ nodes (u₁ ++ .node x.self :: .sep sk :: .node y.self :: u₂)) :
    v ∈ st.fresh :: nodes (u₁ ++ .node q :: u₂) := by
  simp only [nodes_append, nodes_cons_node, nodes_cons_sep] at hv
  exact h.perm.mem_iff.mp hv

theorem upper (hcf : Sized cf) : Upper cf (pending st₂ x y) (u₁ ++ .node q :: u₂) us := by
  obtain ⟨-, -, -, hup⟩ := h.pend.upper
  have hroot : st₂.root = st.root := (congrArg Header.root h.header).trans root_alloc
  refine hup.congr hroot (fun v hv ↦ ?_) fun v hv ↦ ?_
  · have hvu : v ∉ nodes (u₁ ++ .node q :: u₂) := fun hm ↦ h.pend.row_notMem hm hv
    refine h.halves.disk v (fun he ↦ hvu (he ▸ mem_nodes_middle))
      (fun he ↦ h.pend.fresh_notMem.2.2 (he ▸ hv)) (fun hm ↦ hvu (h.others hm).2.2)
      (h.pend.alloc.ne_invalid hcf ?_) fun hm ↦ (h.pend.low_notMem (h.mem_low hm)).2 hv
    exact List.mem_append_right _ (List.mem_append_right _ hv)
  · exact h.halves.par v (fun he ↦ h.pend.fresh_notMem.2.1 (he ▸ hv)) fun hm ↦
      (h.pend.low_notMem (h.mem_low hm)).1 hv

/-- The halves in the place of `q`, one level up. -/
theorem next (hcf : Sized cf) :
    Pend cf st₂ x y sk u₁ u₂ q (low ++ st.fresh :: nodes (u₁ ++ .node q :: u₂)) us := by
  refine ⟨h.upper hcf, ?_, ?_, ?_, fun v hv ↦ List.mem_append_right _ (h.mem_new hv), ?_,
    h.present⟩
  · exact h.offsets.imp (fun h ↦ ⟨h.1.symm, h.2.2⟩) fun h ↦ ⟨h.2.1.symm, h.2.2⟩
  · have hs := h.pend.sorted
    rw [← h.expand_eq] at hs
    exact hs.sublist seps_sublist_expand
  · simp only [nodes_append, nodes_cons_node, nodes_cons_sep]
    exact h.perm.nodup_iff.mpr (List.nodup_cons.mpr
      ⟨h.pend.fresh_notMem.2.1, h.pend.nodup_all.of_append_right.of_append_left⟩)
  · refine ((h.pend.alloc.alloc hcf).of_header h.header).perm ?_
    simp only [Shape.offsets, List.flatMap_cons, List.append_assoc, List.cons_append]
    exact List.perm_middle.symm

/-- The children of the other nodes. -/
theorem nodes_row_others {v w : ℤ} (hv : v ∈ nodes u₁ ++ nodes u₂)
    (hw : w ∈ nodes (row (pending st l r) v)) : w ∈ low ∧ w ∉ cq.vals ++ cn.vals := by
  have hnd := h.pend.nodup
  have hsub := h.pend.sub
  simp only [h.place.left, h.place.right, nodes_append, nodes_cons_node, nodes_cons_sep,
    nodes_lefts h.place.left_length, nodes_rights h.place.right_length] at hnd hsub
  rw [h.vals]
  rcases List.mem_append.mp hv with hv | hv
  · have hm := nodes_row_subset hv hw
    refine ⟨hsub (by simp [hm]), fun hc ↦ ?_⟩
    rw [List.append_assoc] at hnd
    refine List.disjoint_of_nodup_append hnd hm ?_
    simp only [List.mem_append, List.mem_cons] at hc ⊢
    tauto
  · have hm := nodes_row_subset hv hw
    refine ⟨hsub (by simp [hm]), fun hc ↦ ?_⟩
    rw [← List.cons_append, ← List.cons_append, ← List.append_assoc] at hnd
    refine List.disjoint_of_nodup_append hnd ?_ hm
    simp only [List.mem_append, List.mem_cons] at hc ⊢
    tauto

section After

variable {st' : Store} {us' : List Row}
  (hkept : Kept cf us'.length (pending st₂ x y) st' (low ++ st.fresh :: nodes (u₁ ++ .node q :: u₂))
    (u₁ ++ .node x.self :: .sep sk :: .node y.self :: u₂))

include hkept

theorem par_low {v : ℤ} (hv : v ∈ low) : par st' v = par (pending st₂ x y) v :=
  hkept.par v (List.mem_append_left _ hv) fun hm ↦
    (List.mem_cons.mp (h.mem_new hm)).elim (fun he ↦ h.pend.fresh_notMem.1 (he ▸ hv))
      (h.pend.low_notMem hv).1

theorem kept (hcf : Sized cf) : Kept cf (us'.length + 1) (pending st l r) st' low
    (a ++ .node l.self :: .sep key :: .node r.self :: b) where
  content v hv := by
    obtain ⟨hvu, -⟩ := h.pend.low_notMem hv
    rw [hkept.content v (List.mem_append_left _ hv)]
    exact h.halves.content v (fun he ↦ hvu (he ▸ mem_nodes_middle))
      fun he ↦ h.pend.fresh_notMem.1 (he ▸ hv)
  links v hv := by
    obtain ⟨hvu, -⟩ := h.pend.low_notMem hv
    rw [hkept.links v (List.mem_append_left _ hv)]
    exact h.halves.links v (fun he ↦ hvu (he ▸ mem_nodes_middle))
      (fun he ↦ h.pend.fresh_notMem.1 (he ▸ hv)) (fun hm ↦ hvu (h.others hm).2.2)
      (h.pend.alloc.ne_invalid hcf (List.mem_append_left _ hv))
  par v hv hw := by
    rw [h.par_low hkept hv]
    exact h.halves.par v (fun he ↦ h.pend.fresh_notMem.1 (he ▸ hv)) fun hm ↦ hw (h.mem_nodes hm)
  size := by
    have hsize : (st.alloc cf).fileSize = st₂.fileSize :=
      (congrArg Header.fileSize h.header).symm
    have hgrow : Longer cf 1 st.fileSize st₂.fileSize := hsize ▸ longer_alloc
    rw [Nat.add_comm]
    exact hgrow.trans hkept.size

theorem upper_after
    (hup : Upper cf st' (u₁ ++ .node x.self :: .sep sk :: .node y.self :: u₂) us') :
    Upper cf st' (a ++ .node l.self :: .sep key :: .node r.self :: b)
      ((u₁ ++ .node x.self :: .sep sk :: .node y.self :: u₂) :: us') := by
  obtain ⟨-, hin, -, -⟩ := h.pend.upper
  have hcont : ∀ v ∈ nodes (u₁ ++ .node x.self :: .sep sk :: .node y.self :: u₂),
      content st' v = content (pending st₂ x y) v := fun v hv ↦
    hkept.content v (List.mem_append_right _ (h.mem_new hv))
  have hhalf : ∀ {v c}, v ∈ st.fresh :: nodes (u₁ ++ .node q :: u₂) → content (pending st₂ x y) v = some c →
      (∀ u, InnerOk cf u c) → (∀ v' ∈ c.vals, par (pending st₂ x y) v' = some v ∧ v' ∈ low) →
      InnerAt cf st' (u₁ ++ .node x.self :: .sep sk :: .node y.self :: u₂) v :=
    fun hv hc hok hp ↦ ⟨_, (hkept.content _ (List.mem_append_right _ hv)).trans hc, hok _,
      fun v' hv' ↦ (h.par_low hkept (hp v' hv').2).trans (hp v' hv').1⟩
  have hold := hhalf (List.mem_cons_of_mem _ mem_nodes_middle) h.halves.old.1 h.old fun v hv ↦
    ⟨h.halves.old.2 v hv, h.mem_low (List.mem_append_left _ hv)⟩
  have hnew := hhalf List.mem_cons_self h.halves.new.1 h.new fun v hv ↦
    ⟨h.halves.new.2 v hv, h.mem_low (List.mem_append_right _ hv)⟩
  have hothers : ∀ v ∈ nodes u₁ ++ nodes u₂,
      InnerAt cf st' (u₁ ++ .node x.self :: .sep sk :: .node y.self :: u₂) v := by
    intro v hv
    obtain ⟨-, hvf, hvu⟩ := h.others hv
    refine (hin v hvu).congr (fun _ ↦ ?_) ?_ fun v' hv' ↦ ?_
    · have hpos : 0 < u₁.length + u₂.length := by
        rcases List.mem_append.mp hv with hv | hv
        · have := length_pos_of_mem_nodes hv
          omega
        · have := length_pos_of_mem_nodes hv
          omega
      rw [List.length_append, List.length_cons]
      omega
    · rw [hkept.content v (List.mem_append_right _ (List.mem_cons_of_mem _ hvu)),
        h.content_others hv]
    · obtain ⟨hlow, hout⟩ := h.nodes_row_others hv hv'
      rw [h.par_low hkept hlow,
        h.halves.par v' (fun he ↦ h.pend.fresh_notMem.1 (he ▸ hlow)) hout]
  refine ⟨?_, fun v hv ↦ ?_, ?_, hup⟩
  · rw [expand_congr fun v hv ↦ row_congr (hcont v hv), h.expand_eq]
  · simp only [nodes_append, nodes_cons_node, nodes_cons_sep, List.mem_append, List.mem_cons] at hv
    rcases hv with hv | rfl | rfl | hv
    · exact hothers v (List.mem_append_left _ hv)
    · rcases h.offsets with ⟨hx, -, -⟩ | ⟨hx, -, -⟩
      · rwa [hx] at hold ⊢
      · rwa [hx] at hnew ⊢
    · rcases h.offsets with ⟨-, hy, -⟩ | ⟨-, hy, -⟩
      · rwa [hy] at hnew ⊢
      · rwa [hy] at hold ⊢
    · exact hothers v (List.mem_append_right _ hv)
  · simp only [nodes_append, nodes_cons_node, nodes_cons_sep]
    exact h.linked.congr fun v hv ↦
      hkept.links v (List.mem_append_right _ (h.perm.mem_iff.mp hv))

end After

theorem build_run (hcf : Sized cf) (ih : Builds cf us build)
    (hrep : Rep t st₂ [(xc, x), (yc, y)]) :
    Runs (build xc yc sk) t fun z t' ↦ z = 0 ∧ Grown cf (pending st l r) low
      (a ++ .node l.self :: .sep key :: .node r.self :: b) 
      (st.level - ((u₁ ++ .node q :: u₂) :: us).length) t' := by
  refine (ih hrep (h.next hcf)).mono ?_
  rintro z t' ⟨hz, st', us', hrep', hup, halloc, hkept, hlevel⟩
  refine ⟨hz, st', _, hrep', h.upper_after hkept hup, halloc.perm ?_, h.kept hkept hcf, ?_⟩
  · simp only [Shape.offsets, List.flatMap_cons, nodes_append, nodes_cons_node, nodes_cons_sep,
      List.append_assoc]
    refine List.Perm.append_left _ ?_
    have hperm := h.perm
    rw [nodes_append, nodes_cons_node] at hperm
    rw [← List.append_assoc]
    exact List.Perm.append_right _ hperm.symm
  · have hlev : st₂.level = st.level := (congrArg Header.level h.header).trans level_alloc
    rw [List.length_cons, List.length_cons]
    omega

end SplitAt

section Root

/-- The store with the next block as the root of one more level. -/
def raised (cf : Config) (st : Store) : Store :=
  { st.alloc cf with root := st.fresh, level := st.level + 1 }

theorem content_raised : content (raised cf st) o = content st o := content_alloc

theorem links_raised : links (raised cf st) o = links st o := links_alloc

theorem par_raised : par (raised cf st) o = par st o := par_alloc

/-- The store after a new root with the children `l` and `r` has been made. -/
def rooted (cf : Config) (st : Store) (l r : Node) (key : ℤ) : Store :=
  (adopt (raised cf st) st.fresh [] l r).write
    ⟨st.fresh, invalidOffset, invalidOffset, invalidOffset, .nonLeaf, (2 : ℕ), [key],
      [l.self, r.self]⟩

theorem rootBuild_run (hcf : Sized cf) {fuel : ℕ} (h : Rep t st [(lc, l), (rc, r)])
    (hf : Away [(lc, l), (rc, r)] st.fresh) (hl : l.parent = invalidOffset) (hr : r.parent = invalidOffset) :
    Runs (parentNodeBuild cf (fuel + 1) lc rc key) t fun z t' ↦
      z = 0 ∧ Rep t' (rooted cf st l r key) [] := by
  have horder := hcf.order
  unfold parentNodeBuild
  refine h.node_bind mem₁ (h.node_bind mem₂ ?_)
  rw [if_pos ⟨hl, hr⟩]
  refine (h.nonLeafNew (by simp)).seq fun c t₁ ⟨m, h₁, hm⟩ ↦ ?_
  obtain ⟨s', q', l', r', _, x', a', b', u'⟩ := m
  obtain ⟨rfl, rfl, rfl, rfl, rfl, rfl⟩ := hm
  refine (Inner.storeKey h₁ (by omega)).seq fun _ t₂ h₂ ↦ ?_
  refine (Inner.storeSub h₂ (by omega)).seq fun _ t₃ h₃ ↦ ?_
  refine (Inner.storeSub h₃ (by omega)).seq fun _ t₄ h₄ ↦ ?_
  refine (Inner.setChildren h₄ rfl).seq fun _ t₅ h₅ ↦ ?_
  refine (h₅.append hf).seq ?_
  rintro _ t₆ ⟨rfl, h₆⟩
  refine (h₆.modify { st.alloc cf with root := st.fresh } ⟨rfl, rfl, rfl, rfl⟩
    ⟨rfl, h₆.level, h₆.fileSize, h₆.free, rfl⟩).seq fun _ t₇ h₇ ↦ ?_
  refine (h₇.swap.modifyNode _).seq fun _ t₈ h₈ ↦ ?_
  refine (h₈.third.modifyNode _).seq fun _ t₉ h₉ ↦ ?_
  refine (h₉.modify (raised cf st) ⟨rfl, rfl, rfl, rfl⟩
    ⟨h₉.root, ?_, h₉.fileSize, h₉.free, rfl⟩).seq fun _ t₁₀ h₁₀ ↦ ?_
  · exact congrArg (· + 1) (h₉.level.trans level_alloc)
  refine h₁₀.swap.flush.seq fun _ t₁₁ h₁₁ ↦ ?_
  refine h₁₁.flush.seq fun _ t₁₂ h₁₂ ↦ ?_
  refine h₁₂.flush.seq fun _ t₁₃ h₁₃ ↦ ?_
  refine runs_pure ⟨rfl, ?_⟩
  have hblock : block ⟨st.fresh, invalidOffset, invalidOffset, invalidOffset, .nonLeaf, 2,
      Function.update a' 0 key, b', Function.update (Function.update u' 0 l.self) 1 r.self⟩ =
      ⟨st.fresh, invalidOffset, invalidOffset, invalidOffset, .nonLeaf, (2 : ℕ), [key],
        [l.self, r.self]⟩ := by
    rw [Inner.block_eq (k := 1) ⟨rfl, rfl⟩]
    simp [front, List.range_succ]
  rw [rooted, ← hblock]
  exact h₁₃

/-- The children of a new root lie on a level of their own. -/
theorem builds_root (hcf : Sized cf) (fuel : ℕ) : Builds cf [] (parentNodeBuild cf (fuel + 1)) := by
  intro t st lc rc l r key a b o low h hp
  obtain ⟨hw, hpar⟩ := hp.upper
  obtain ⟨rfl, ho, rfl⟩ : a = [] ∧ o = st.root ∧ b = [] := by
    cases a with
    | nil =>
      rw [List.nil_append, List.cons.injEq, Item.node.injEq] at hw
      exact ⟨rfl, hw.1, hw.2⟩
    | cons x a => simp at hw
  have hpar' : par (pending st l r) o = some invalidOffset := ho ▸ hpar
  have hne : l.self ≠ r.self := by simpa using hp.nodup
  have hlr : l.parent = invalidOffset ∧ r.parent = invalidOffset := by
    rcases hp.which with ⟨rfl, hr⟩ | ⟨rfl, hl⟩
    · rw [par_pending, if_neg hne, if_pos rfl, Option.some.injEq] at hpar'
      exact ⟨hpar', hr⟩
    · rw [par_pending, if_pos rfl, Option.some.injEq] at hpar'
      exact ⟨hl, hpar'⟩
  have hfresh : st.fresh ∉ low := by simpa [offsets] using hp.alloc.fresh_notMem
  have hlow : ∀ v ∈ low, v ≠ st.fresh := fun v hv he ↦ hfresh (he ▸ hv)
  have hl := hlow l.self (hp.sub (by simp))
  have hr := hlow r.self (hp.sub (by simp))
  refine (rootBuild_run hcf h (by simp [hl, hr]) hlr.1 hlr.2).mono fun z t' ⟨hz, hrep⟩ ↦ ?_
  have horder := hcf.order
  refine ⟨hz, _, [[.node st.fresh]], hrep, ?_, ?_, ?_, ?_⟩
  · have hc : content (rooted cf st l r key) st.fresh =
        some ⟨.nonLeaf, (2 : ℕ), [key], [l.self, r.self]⟩ := by
      rw [rooted, content_write, if_pos rfl]
      rfl
    refine ⟨by simp [row_eq hc, weave], fun v hv ↦ ?_, ?_, rfl, ?_⟩
    · obtain rfl : v = st.fresh := by simpa using hv
      refine ⟨_, hc, ⟨rfl, rfl, rfl, le_rfl, by simp; omega, by simp⟩, fun v hv ↦ ?_⟩
      have hv' : v = l.self ∨ v = r.self := by simpa using hv
      have hvf : v ≠ st.fresh := by rcases hv' with rfl | rfl <;> assumption
      rw [rooted, par_write, if_neg hvf, par_adopt, if_pos hv'.symm]
    · refine ⟨?_, trivial⟩
      rw [rooted, links_write, if_pos rfl]
      rfl
    · change par (rooted cf st l r key) st.fresh = _
      rw [rooted, par_write, if_pos rfl]
  · refine ((hp.alloc.alloc hcf).congr ?_ ?_).perm ?_
    · exact congrArg Header.free header_adopt
    · exact congrArg Header.fileSize header_adopt
    · simp only [offsets, List.flatMap_nil, List.append_nil, List.flatMap_cons, nodes_cons_node,
        nodes_nil]
      exact (List.perm_append_singleton _ _).symm
  · have hhead : header (adopt (raised cf st) st.fresh [] l r) = header (raised cf st) :=
      header_adopt
    have hsize : (rooted cf st l r key).fileSize = (st.alloc cf).fileSize :=
      congrArg Header.fileSize hhead
    have hgrow : Longer cf 1 st.fileSize (st.alloc cf).fileSize := longer_alloc
    refine ⟨fun v hv ↦ ?_, fun v hv ↦ ?_, fun v hv hw ↦ ?_, hsize ▸ hgrow⟩
    · rw [rooted, content_write, if_neg (hlow v hv), content_adopt, content_pending,
        content_raised, content_pending]
    · rw [rooted, links_write, if_neg (hlow v hv), links_adopt, links_pending, links_raised,
        links_pending]
    · have hv' : v ≠ l.self ∧ v ≠ r.self := by simpa using hw
      rw [rooted, par_write, if_neg (hlow v hv), par_adopt, if_neg (by tauto),
        if_neg List.not_mem_nil, par_raised, par_pending, if_neg hv'.2, if_neg hv'.1]
  · have hlevel : (rooted cf st l r key).level = st.level + 1 :=
      congrArg Header.level (header_adopt : header (adopt (raised cf st) st.fresh [] l r) = _)
    rw [hlevel]
    simp

end Root

end MqssdModel.BPlusTree.InsertCascade
