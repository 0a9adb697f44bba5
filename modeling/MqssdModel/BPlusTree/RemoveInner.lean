import MqssdModel.BPlusTree.Neighbours

namespace MqssdModel.BPlusTree.RemoveInner

open Data.Arrays Data.Moves Data.Rows Data.Chain Data.TotalRun Machine Caching Routines Removal InnerSpecs
  Views Shape Allocation Pending Splitting Search Steps InsertCascade InsertSplit Siblings
  RemoveCascade Rebalance Neighbours

/-- The parent `q` of two nodes that have been merged is in a cache, as `n`. -/
structure Short (cf : Config) (st : Store) (a : Row) (l k r : ℤ) (b : Row) (low : List ℤ)
    (us : List Row) (u₁ : Row) (q : ℤ) (u₂ : Row) (c : Content) (ks₁ ks₂ vs₁ vs₂ : List ℤ)
    (n : Node) : Prop where
  lack : Lack cf st a l k r b low us u₁ q u₂ c ks₁ ks₂ vs₁ vs₂
  disk : st.disk q = some (block n)
  self : n.self = q

/-- What is to be shown of `non_leaf_remove`. -/
def Removes (cf : Config) (us : List Row) (remove : Ptr → ℤ → M Unit) : Prop :=
  ∀ {t : Tree} {st : Store} {nc : Ptr} {n : Node} {a b u₁ u₂ : Row} {l k r q : ℤ} {low : List ℤ}
    {c : Content} {ks₁ ks₂ vs₁ vs₂ : List ℤ}, Rep t st [(nc, n)] →
    Short cf st a l k r b low us u₁ q u₂ c ks₁ ks₂ vs₁ vs₂ n →
    Runs (remove nc ks₁.length) t fun _ t' ↦
      Grown cf st low (a ++ .node l :: b) (st.level - ((u₁ ++ .node q :: u₂) :: us).length) t'

variable {cf : Config} {t : Tree} {st : Store} {nc : Ptr} {n n' : Node} {a b u₁ u₂ U : Row}
  {us : List Row} {l k r q : ℤ} {low : List ℤ} {c : Content} {ks₁ ks₂ vs₁ vs₂ : List ℤ}

namespace Short

variable (h : Short cf st a l k r b low us u₁ q u₂ c ks₁ ks₂ vs₁ vs₂ n)

include h

theorem content_eq : Block.content (block n) = c := by
  have hc := h.lack.pair.content
  rw [Views.content, h.disk] at hc
  exact Option.some.inj hc

theorem keys : (block n).keys = ks₁ ++ k :: ks₂ :=
  (congrArg Content.keys h.content_eq).trans h.lack.pair.keys

theorem vals : (block n).vals = vs₁ ++ l :: r :: vs₂ :=
  (congrArg Content.vals h.content_eq).trans h.lack.pair.vals

theorem lengths : ks₁.length = vs₁.length ∧ ks₂.length = vs₂.length :=
  ⟨h.lack.pair.left_length, h.lack.pair.right_length⟩

theorem inner : Inner n (ks₁.length + ks₂.length + 1) := by
  have hok := h.lack.pair.ok
  obtain ⟨hl, hr⟩ := h.lengths
  refine Inner.of_block ((congrArg Content.kind h.content_eq).trans hok.kind)
    (((congrArg Content.count h.content_eq).trans hok.count).trans ?_)
  rw [h.lack.pair.vals, List.length_append, List.length_cons, List.length_cons]
  omega

theorem cap : (ks₁.length + ks₂.length + 2 : ℕ) ≤ cf.maxOrder := by
  have hcap := h.lack.pair.ok.cap
  obtain ⟨hl, hr⟩ := h.lengths
  rw [h.lack.pair.vals, List.length_append, List.length_cons, List.length_cons] at hcap
  omega

theorem half (hu : 1 < (u₁ ++ Item.node q :: u₂).length) :
    cf.maxOrder / 2 ≤ (ks₁.length + ks₂.length + 2 : ℕ) := by
  have hhalf := h.lack.pair.ok.half hu
  obtain ⟨hl, hr⟩ := h.lengths
  rw [h.lack.pair.vals, List.length_append, List.length_cons, List.length_cons] at hhalf
  omega

theorem splice_keys : splice (block n).keys ks₁.length [] 1 = ks₁ ++ ks₂ := by
  rw [h.keys]
  exact splice_append ks₁ [] [k] ks₂

theorem splice_vals : splice (block n).vals (ks₁.length + 1) [] 1 = vs₁ ++ l :: vs₂ := by
  have hs := splice_append (vs₁ ++ [l]) [] [r] vs₂
  rw [h.vals, h.lengths.1]
  simpa using hs

theorem level : Level cf st low (a ++ .node l :: b) (u₁ ++ .node q :: u₂) us := by
  obtain ⟨-, hin, hlink, hup⟩ := h.lack.upper
  exact ⟨hin, hup, hlink, h.lack.alloc, h.lack.nodup, h.lack.sub⟩

theorem row_eq : a ++ .node l :: b =
    expand (row st) u₁ ++ (weave (ks₁ ++ ks₂) (vs₁ ++ l :: vs₂) ++ expand (row st) u₂) := by
  rw [h.lack.pair.left, h.lack.pair.right, weave_focus h.lengths.1 h.lengths.2]
  simp

theorem par_vals {v : ℤ} (hv : v ∈ vs₁ ++ l :: vs₂) : par st v = some q := by
  refine h.lack.pair.par v ?_
  rw [h.lack.pair.vals]
  simp only [List.mem_append, List.mem_cons] at hv ⊢
  tauto

theorem vals_mem {v : ℤ} (hv : v ∈ vs₁ ++ l :: vs₂) : v ∈ low := by
  refine h.lack.sub ?_
  simp only [h.lack.pair.left, h.lack.pair.right, nodes_append, nodes_cons_node,
    nodes_lefts h.lengths.1, nodes_rights h.lengths.2, List.mem_append, List.mem_cons] at hv ⊢
  tauto

theorem present {v : ℤ} (hcf : Sized cf) (hv : v ∈ vs₁ ++ l :: vs₂) : Present st v := by
  obtain ⟨bv, hb, -⟩ := Option.map_eq_some_iff.mp (h.par_vals hv)
  exact ⟨h.lack.alloc.ne_invalid hcf (List.mem_append_left _ (h.vals_mem hv)), by simp [hb]⟩

theorem innerOk (hb : block n' = { block n with
      count := (ks₁.length + ks₂.length + 1 : ℕ)
      keys := ks₁ ++ ks₂
      vals := vs₁ ++ l :: vs₂ }) (htwo : 1 ≤ ks₁.length + ks₂.length) {u : Row}
    (hhalf : 1 < u.length → cf.maxOrder / 2 ≤ (ks₁.length + ks₂.length + 1 : ℕ)) :
    InnerOk cf u (Block.content (block n')) := by
  obtain ⟨hl, hr⟩ := h.lengths
  have hcap := h.cap
  have hlen : (vs₁ ++ l :: vs₂).length = ks₁.length + ks₂.length + 1 := by
    rw [List.length_append, List.length_cons]
    omega
  rw [hb]
  refine ⟨h.inner.type, ?_, ?_, ?_, ?_, fun hu ↦ ?_⟩
  · simp only [Block.content, hlen]
  · simp only [Block.content, hlen, List.length_append]
  · simp only [Block.content, hlen]
    omega
  · simp only [Block.content, hlen]
    omega
  · simp only [Block.content, hlen]
    exact hhalf hu

theorem simpleRemove_run (hrep : Rep t st [(nc, n)]) (htwo : 1 ≤ ks₁.length + ks₂.length)
    (hhalf : 1 < (u₁ ++ Item.node q :: u₂).length →
      cf.maxOrder / 2 ≤ (ks₁.length + ks₂.length + 1 : ℕ)) :
    Runs (do
      nonLeafSimpleRemove cf nc ks₁.length
      nodeFlush (some nc)) t fun _ t' ↦
        Grown cf st low (a ++ .node l :: b) (st.level - ((u₁ ++ .node q :: u₂) :: us).length) t' := by
  have hcap := h.cap
  refine (nonLeafSimpleRemove_run hrep h.inner (by omega) (by omega)).seq ?_
  rintro _ t₁ ⟨n', h₁, hb⟩
  rw [h.splice_keys, h.splice_vals] at hb
  refine h₁.flush.mono fun _ t₂ h₂ ↦ ?_
  refine grown_of_simple h.level (same_of_block h.disk h.self (by rw [hb])) ?_ (h.innerOk hb htwo hhalf) ?_ h₂
  · rw [hb]
    exact h.row_eq
  · rw [hb]
    exact fun v hv ↦ h.par_vals hv

end Short

section Root

/-- The store after the last two children of the root have become one, which is the root then. -/
def collapsed (st : Store) (q l : ℤ) (bl : Block) : Store :=
  ({ st with root := l, level := st.level - 1 }.release q).write
    { bl with parent := invalidOffset }

variable (h : Short cf st a l k r b low [] u₁ q u₂ c ks₁ ks₂ vs₁ vs₂ n)

include h

theorem root_eq : u₁ = [] ∧ u₂ = [] ∧ n.parent = invalidOffset := by
  obtain ⟨-, -, -, hu, hpar⟩ := h.lack.upper
  have hlen := congrArg List.length hu
  rw [List.length_append, List.length_cons, List.length_singleton] at hlen
  obtain rfl := List.eq_nil_of_length_eq_zero (show u₁.length = 0 by omega)
  obtain rfl := List.eq_nil_of_length_eq_zero (show u₂.length = 0 by omega)
  rw [List.nil_append, List.singleton_inj, Item.node.injEq] at hu
  rw [← hu, par, h.disk] at hpar
  exact ⟨rfl, rfl, Option.some.inj hpar⟩

theorem collapse_run (hcf : Sized cf) (hrep : Rep t st [(nc, n)]) (hks : ks₁.length + ks₂.length = 0) :
    Runs (do
      let root ← deref (← nodeFetch (← load cf subField nc 0))
      modifyNode root fun m ↦ { m with parent := invalidOffset }
      let rootSelf := (← node root).self
      modify fun t ↦ { t with root := rootSelf }
      modify fun t ↦ { t with level := t.level - 1 }
      nodeDelete nc none none
      nodeFlush (some root)) t fun _ t' ↦ ∃ bl, st.disk l = some bl ∧
        Rep t' (collapsed st q l bl) [] := by
  obtain ⟨hl, hr⟩ := h.lengths
  obtain rfl := List.eq_nil_of_length_eq_zero (show vs₁.length = 0 by omega)
  have horder := hcf.order
  have hpres := h.present hcf (v := l) (by simp)
  have hne : n.self ≠ l := by
    rw [h.self]
    rintro rfl
    exact (h.level.low_notMem (h.vals_mem (by simp))).1 mem_nodes_middle
  have hq : q ≠ invalidOffset := by
    refine h.lack.alloc.ne_invalid hcf (List.mem_append_right _ (List.mem_append_left _ ?_))
    exact mem_nodes_middle
  have hsub : subField.get n 0 = l := by
    have hv := h.vals
    rw [h.inner.block_eq] at hv
    exact (front_cons_inj hv).1
  obtain ⟨bl, hbl⟩ := Option.isSome_iff_exists.mp hpres.2
  refine hrep.load_bind mem₁ ⟨le_rfl, by change 0 < cf.maxOrder; omega⟩ ?_
  rw [hsub]
  refine (hrep.fetch hpres.1 hbl (by simpa using hne) (by simp)).seq ?_
  rintro _ t₁ ⟨lc, ln, rfl, rfl, h₁⟩
  refine deref_bind ((h₁.modifyNode _).seq fun _ t₂ h₂ ↦ h₂.node_bind mem₁ ?_)
  have hself : ln.self = l := hrep.self l _ hbl
  refine (h₂.modify { st with root := l } ⟨rfl, rfl, rfl, rfl⟩
    ⟨hself, h₂.level, h₂.fileSize, h₂.free, rfl⟩).seq fun _ t₃ h₃ ↦ ?_
  refine (h₃.modify { st with root := l, level := st.level - 1 } ⟨rfl, rfl, rfl, rfl⟩
    ⟨h₃.root, congrArg (· - 1) h₃.level, h₃.fileSize, h₃.free, rfl⟩).seq fun _ t₄ h₄ ↦ ?_
  refine (release_run h₄.swap (h.self ▸ hq)).seq fun _ t₅ h₅ ↦ ?_
  refine h₅.flush.mono fun _ t₆ h₆ ↦ ⟨_, hbl, ?_⟩
  rw [h.self] at h₆
  exact h₆

theorem grown_collapsed {bl : Block} (hself : bl.self = l) (hbl : st.disk l = some bl)
    (hks : ks₁.length + ks₂.length = 0) (hrep : Rep t (collapsed st q l bl) []) :
    Grown cf st low (a ++ .node l :: b) (st.level - ([u₁ ++ .node q :: u₂] : List Row).length)
      t := by
  obtain ⟨hl, hr⟩ := h.lengths
  obtain ⟨rfl, rfl, -⟩ := root_eq h
  obtain rfl := List.eq_nil_of_length_eq_zero (show vs₁.length = 0 by omega)
  obtain rfl := List.eq_nil_of_length_eq_zero (show ks₁.length = 0 by omega)
  obtain rfl := List.eq_nil_of_length_eq_zero (show vs₂.length = 0 by omega)
  obtain rfl := List.eq_nil_of_length_eq_zero (show ks₂.length = 0 by omega)
  have ha : a = [] := h.lack.pair.left
  have hb : b = [] := h.lack.pair.right
  subst ha hb
  have hcont (v : ℤ) : content (collapsed st q l bl) v = content st v := by
    rw [collapsed, content_write]
    dsimp only
    rw [hself]
    split_ifs with hv
    · rw [hv, content, hbl]
      rfl
    · rfl
  have hlinks (v : ℤ) : links (collapsed st q l bl) v = links st v := by
    rw [collapsed, links_write]
    dsimp only
    rw [hself]
    split_ifs with hv
    · rw [hv, links, hbl]
      rfl
    · rfl
  refine ⟨_, [], hrep, ⟨rfl, ?_⟩, ?_, ⟨fun v _ ↦ hcont v, fun v _ ↦ hlinks v, fun v _ hv ↦ ?_,
    longer_of_eq _ rfl⟩, ?_⟩
  · change par (collapsed st q l bl) l = _
    rw [collapsed, par_write, if_pos hself.symm]
  · have halloc := h.lack.alloc
    refine (Alloc.release (o := q) (halloc.perm ?_)).congr rfl rfl
    simp only [offsets, List.flatMap_cons, List.flatMap_nil, List.nil_append, List.append_nil,
      nodes_cons_node, nodes_nil]
    exact List.perm_append_singleton q low
  · have hvl : v ≠ l := by simpa using hv
    rw [collapsed, par_write]
    dsimp only
    rw [hself, if_neg hvl]
    rfl
  · change st.level - 1 - 0 = _
    simp

end Root

end MqssdModel.BPlusTree.RemoveInner
