import MqssdModel.BPlusTree.Siblings

namespace MqssdModel.BPlusTree.RemoveCascade

open Data.Rows Data.Chain Machine Caching Routines Views Shape Allocation Pending InsertCascade
  Siblings

variable {cf : Config} {t : Tree} {st st₁ st' : Store} {a b u₁ u₂ w w' : Row} {us : List Row}
  {g x x' e p d : ℤ} {c cg ce : Content} {ks₁ ks₂ vs₁ vs₂ moved low : List ℤ}

theorem nodes_pair : nodes (a ++ .node g :: .sep x :: .node e :: b) =
    nodes (a ++ .node g :: .node e :: b) := by simp

/-- A level of the tree with the levels below it in `low`, where `w` is to become the row below. -/
structure Level (cf : Config) (st : Store) (low : List ℤ) (w u : Row) (us : List Row) : Prop where
  inner : ∀ o ∈ nodes u, InnerAt cf st u o
  upper : Upper cf st u us
  linked : Linked (links st) invalidOffset (nodes u) invalidOffset
  alloc : Alloc cf st (low ++ (nodes u ++ offsets us))
  nodup : (nodes w).Nodup
  sub : nodes w ⊆ low

namespace Level

variable {u : Row} (h : Level cf st low w u us)

include h

theorem low_notMem {v : ℤ} (hv : v ∈ low) : v ∉ nodes u ∧ v ∉ offsets us := by
  have hd := List.disjoint_of_nodup_append h.alloc.nodup.of_append_left
  exact ⟨fun hm ↦ hd hv (List.mem_append_left _ hm), fun hm ↦ hd hv (List.mem_append_right _ hm)⟩

theorem row_notMem {v : ℤ} (hv : v ∈ nodes u) : v ∉ offsets us :=
  List.disjoint_of_nodup_append h.alloc.nodup.of_append_left.of_append_right hv

theorem ne_invalid (hcf : Sized cf) {v : ℤ} (hv : v ∈ nodes u ++ offsets us) :
    v ≠ invalidOffset :=
  h.alloc.ne_invalid hcf (List.mem_append_right _ hv)

/-- The children of the rest of the level. -/
theorem rest {m : Row} (hw : w = expand (row st) a ++ (m ++ expand (row st) b)) {v : ℤ}
    (hv : v ∈ nodes (expand (row st) a) ++ nodes (expand (row st) b)) :
    v ∈ low ∧ v ∉ nodes m := by
  have hnd := h.nodup
  have hsub := h.sub
  simp only [hw, nodes_append] at hnd hsub
  rcases List.mem_append.mp hv with hv | hv
  · refine ⟨hsub (List.mem_append_left _ hv), fun hm ↦ ?_⟩
    exact List.disjoint_of_nodup_append hnd hv (List.mem_append_left _ hm)
  · refine ⟨hsub (List.mem_append_right _ (List.mem_append_right _ hv)), fun hm ↦ ?_⟩
    exact List.disjoint_of_nodup_append hnd.of_append_right hm hv

theorem middle {m : Row} (hw : w = expand (row st) a ++ (m ++ expand (row st) b)) {v : ℤ}
    (hv : v ∈ nodes m) : v ∈ low := by
  refine h.sub ?_
  simp only [hw, nodes_append]
  exact List.mem_append_right _ (List.mem_append_left _ hv)

end Level

section Merge

variable (h : Merged st st₁ a g e b moved cg)

include h

/-- A merge on one level is a lack on the level above. -/
theorem lack_of_merged (hcf : Sized cf)
    (hup : Upper cf st (a ++ .node g :: .sep x :: .node e :: b) ((u₁ ++ .node p :: u₂) :: us))
    (hpair : Pair cf st a g x e b u₁ p u₂ c ks₁ ks₂ vs₁ vs₂)
    (hs : (seps (a ++ .node g :: .sep x :: .node e :: b)).Pairwise (· < ·))
    (halloc : Alloc cf st (low ++ (nodes (a ++ .node g :: .node e :: b) ++
      offsets ((u₁ ++ .node p :: u₂) :: us)))) (hmoved : moved ⊆ low) :
    Lack cf st₁ a g x e b (low ++ nodes (a ++ .node g :: b)) us u₁ p u₂ c ks₁ ks₂ vs₁ vs₂ := by
  have hnd := halloc.nodup.of_append_left
  have hlow {v : ℤ} (hv : v ∈ nodes (a ++ .node g :: .node e :: b)) : v ∉ moved := fun hm ↦
    List.disjoint_of_nodup_append hnd (hmoved hm) (List.mem_append_left _ hv)
  have hoff {v : ℤ} (hv : v ∈ offsets ((u₁ ++ .node p :: u₂) :: us)) :
      v ∉ nodes (a ++ .node g :: .node e :: b) ∧ v ∉ moved :=
    ⟨fun hm ↦ List.disjoint_of_nodup_append hnd.of_append_right hm hv, fun hm ↦
      List.disjoint_of_nodup_append hnd (hmoved hm) (List.mem_append_right _ hv)⟩
  have hpar : ∀ v ∈ nodes (a ++ .node g :: .node e :: b), par st₁ v = par st v := fun v hv ↦
    h.par v (hlow hv)
  have hvals : ∀ v ∈ c.vals, v ∈ nodes (a ++ .node g :: .node e :: b) := fun v hv ↦ by
    rw [hpair.vals] at hv
    simp only [hpair.left, hpair.right, nodes_append, nodes_cons_node,
      nodes_lefts hpair.left_length, nodes_rights hpair.right_length, List.mem_append,
      List.mem_cons] at hv ⊢
    tauto
  refine ⟨hup.congr (congrArg Header.root h.header) (fun v hv ↦ ?_) fun v hv ↦ ?_,
    hpair.congr (fun v hv ↦ h.content v ?_) fun v hv ↦ hpar v (hvals v hv), hs, ?_,
    List.subset_append_right _ _, ?_⟩
  · refine h.disk v (hoff hv).1 (hoff hv).2 (halloc.ne_invalid hcf ?_)
    exact List.mem_append_right _ (List.mem_append_right _ hv)
  · exact hpar v (nodes_pair ▸ hv)
  · rintro rfl
    exact (hoff (List.mem_append_left _ hv)).1 (by simp)
  · refine hnd.of_append_right.of_append_left.sublist ?_
    simp only [nodes_append, nodes_cons_node]
    exact (((List.sublist_cons_self _ _).cons_cons _)).append_left _
  · refine (Alloc.release (o := e) (halloc.perm ?_)).of_header h.header
    simp only [nodes_append, nodes_cons_node, List.append_assoc, List.cons_append]
    refine (List.Perm.append_left low ?_).trans List.perm_middle
    exact (List.Perm.append_left _ (.swap e g _)).trans List.perm_middle

variable (hlevel : Level cf st low w (a ++ .node g :: .sep x :: .node e :: b) us)
  (hw : w = expand (row st) a ++ (weave cg.keys cg.vals ++ expand (row st) b))
  (hok : InnerOk cf (a ++ .node g :: b) cg) (hmoved : moved ⊆ cg.vals)
  (hpar : ∀ v ∈ cg.vals, v ∉ moved → par st v = some g)

include hlevel hw hok hmoved hpar

/-- What the levels above make of a merge is a tree again. -/
theorem grown_of_merged (hcf : Sized cf)
    (hgrown : Grown cf st₁ (low ++ nodes (a ++ .node g :: b)) (a ++ .node g :: b) d t) :
    Grown cf st low w (d - 1) t := by
  obtain ⟨st', us', hrep, hup, halloc, hkept, hd⟩ := hgrown
  have hnodes : nodes (weave cg.keys cg.vals) = cg.vals := nodes_weave hok.keys
  have hrow {v : ℤ} (hv : v ∈ nodes (a ++ .node g :: b)) :
      v ∈ nodes (a ++ .node g :: .sep x :: .node e :: b) := by
    simp only [nodes_append, nodes_cons_node, nodes_cons_sep, List.mem_append, List.mem_cons]
      at hv ⊢
    tauto
  have hlowrow {v : ℤ} (hv : v ∈ low) : v ∉ nodes (a ++ .node g :: b) := fun hm ↦
    (hlevel.low_notMem hv).1 (hrow hm)
  have hg : ∀ v ∈ low, v ≠ g := fun v hv he ↦ hlowrow hv (he ▸ by simp)
  have hparlow : ∀ v ∈ low, par st' v = par st₁ v := fun v hv ↦
    hkept.par v (List.mem_append_left _ hv) (hlowrow hv)
  have hside {v : ℤ} (hv : v ∈ nodes a ++ nodes b) : v ≠ g := by
    have hnd := hlevel.alloc.nodup.of_append_left.of_append_right.of_append_left
    simp only [nodes_append, nodes_cons_node, nodes_cons_sep, List.nodup_middle, List.nodup_cons,
      List.mem_append, List.mem_cons] at hnd
    rintro rfl
    exact hnd.1 (by rw [List.mem_append] at hv; tauto)
  have hcont : ∀ v ∈ nodes a ++ nodes b, content st' v = content st v := fun v hv ↦ by
    rw [hkept.content v (List.mem_append_right _ ?_), h.content v (hside hv)]
    simp only [nodes_append, nodes_cons_node, List.mem_append, List.mem_cons] at hv ⊢
    tauto
  have hcg : content st' g = some cg :=
    (hkept.content g (List.mem_append_right _ (by simp))).trans h.self
  have hlink : Linked (links st') invalidOffset (nodes (a ++ ([.node g] ++ b))) invalidOffset := by
    have hrow' : nodes (a ++ ([.node g] ++ b)) = nodes a ++ g :: nodes b := by simp
    rw [hrow']
    refine h.linked.congr fun v hv ↦ hkept.links v (List.mem_append_right _ ?_)
    rwa [nodes_append, nodes_cons_node]
  have hup' := Upper.rebuild [.node g, .sep x, .node e] [.node g] hlevel.inner
    (List.cons_ne_nil _ _) hcont (fun v hv ↦ ?_) (fun v hv ↦ ?_) hlink hup
  · rw [expand_cons_node, row_eq hcg, expand_nil, List.append_nil, ← hw] at hup'
    have hsize : st₁.fileSize = st.fileSize := congrArg Header.fileSize h.header
    refine ⟨st', _, hrep, hup', ?_, ⟨fun v hv ↦ ?_, fun v hv ↦ ?_, fun v hv hv' ↦ ?_,
      (hsize ▸ hkept.size).mono (Nat.le_succ _)⟩, ?_⟩
    · rw [offsets, List.flatMap_cons, ← List.append_assoc]
      exact halloc
    · rw [hkept.content v (List.mem_append_left _ hv), h.content v (hg v hv)]
    · rw [hkept.links v (List.mem_append_left _ hv), h.links v ?_ ?_]
      · exact fun hm ↦ (hlevel.low_notMem hv).1 (nodes_pair ▸ hm)
      · exact hlevel.alloc.ne_invalid hcf (List.mem_append_left _ hv)
    · rw [hparlow v hv, h.par v fun hm ↦ hv' ?_]
      rw [hw, nodes_append, nodes_append, hnodes]
      exact List.mem_append_right _ (List.mem_append_left _ (hmoved hm))
    · rw [List.length_cons]
      omega
  · obtain ⟨hlow, hout⟩ := hlevel.rest hw hv
    rw [hparlow v hlow, h.par v fun hm ↦ hout (by rw [hnodes]; exact hmoved hm)]
  · obtain rfl : v = g := by simpa using hv
    refine ⟨cg, hcg, hok, fun v hv ↦ ?_⟩
    rw [hparlow v (hlevel.middle hw (by rwa [hnodes]))]
    by_cases hm : v ∈ moved
    · exact h.adopted v hm
    · rw [h.par v hm, hpar v hv hm]

end Merge

section Shift

variable (h : Shifted st st' g e p moved cg ce { c with keys := ks₁ ++ x' :: ks₂ })
  (hlevel : Level cf st low w (a ++ .node g :: .sep x :: .node e :: b)
    ((u₁ ++ .node p :: u₂) :: us))
  (hpair : Pair cf st a g x e b u₁ p u₂ c ks₁ ks₂ vs₁ vs₂)

include h hlevel hpair

theorem upper_of_shifted (hmoved : moved ⊆ low) :
    Upper cf st' (a ++ .node g :: .sep x' :: .node e :: b) ((u₁ ++ .node p :: u₂) :: us) := by
  have hnd := hlevel.alloc.nodup.of_append_left
  have hge {v : ℤ} (hv : v ∈ offsets ((u₁ ++ .node p :: u₂) :: us)) :
      v ≠ g ∧ v ≠ e ∧ v ∉ moved := by
    refine ⟨?_, ?_, fun hm ↦ (hlevel.low_notMem (hmoved hm)).2 hv⟩
    · rintro rfl
      exact hlevel.row_notMem (by simp) hv
    · rintro rfl
      exact hlevel.row_notMem (by simp) hv
  refine Siblings.Upper.resep hlevel.upper hpair hnd.of_append_right.of_append_right
    (congrArg Header.root h.header) h.parent (h.links p) (fun v hv hvp ↦ ?_) fun v hv ↦ ?_
  · obtain ⟨hg, he, hm⟩ := hge hv
    exact h.disk v hg he hvp hm
  · refine h.par v fun hm ↦ ?_
    rcases List.mem_cons.mp hv with rfl | hv
    · exact (hge (List.mem_append_left _ mem_nodes_middle)).2.2 hm
    · exact (hlevel.low_notMem (hmoved hm)).1 (nodes_pair ▸ hv)

theorem grown_of_shifted
    (hw : w = expand (row st) a ++ (weave cg.keys cg.vals ++ .sep x' :: weave ce.keys ce.vals ++
      expand (row st) b))
    (hokg : ∀ {u}, u = a ++ .node g :: .sep x' :: .node e :: b → InnerOk cf u cg)
    (hoke : ∀ {u}, u = a ++ .node g :: .sep x' :: .node e :: b → InnerOk cf u ce)
    (hmoved : moved ⊆ cg.vals ++ ce.vals)
    (hpar : (∀ v ∈ cg.vals, par st' v = some g) ∧ ∀ v ∈ ce.vals, par st' v = some e)
    (hrep : Rep t st' []) :
    Grown cf st low w (st.level -
      ((a ++ .node g :: .sep x :: .node e :: b) :: (u₁ ++ .node p :: u₂) :: us).length) t := by
  have hnodes : nodes (weave cg.keys cg.vals ++ .sep x' :: weave ce.keys ce.vals) =
      cg.vals ++ ce.vals := by
    rw [nodes_append, nodes_cons_sep, nodes_weave (hokg rfl).keys, nodes_weave (hoke rfl).keys]
  have hmlow : moved ⊆ low := fun v hv ↦ hlevel.middle hw (hnodes ▸ hmoved hv)
  have hp : p ∈ offsets ((u₁ ++ .node p :: u₂) :: us) := List.mem_append_left _ mem_nodes_middle
  have hgep {v : ℤ} (hv : v ∈ low) : v ≠ g ∧ v ≠ e ∧ v ≠ p := by
    obtain ⟨hrow, hup⟩ := hlevel.low_notMem hv
    refine ⟨?_, ?_, ?_⟩
    · rintro rfl
      exact hrow (by simp)
    · rintro rfl
      exact hrow (by simp)
    · rintro rfl
      exact hup hp
  have hside {v : ℤ} (hv : v ∈ nodes a ++ nodes b) : v ≠ g ∧ v ≠ e ∧ v ≠ p := by
    have hnd := hlevel.alloc.nodup.of_append_left.of_append_right
    have hrow : v ∈ nodes (a ++ .node g :: .sep x :: .node e :: b) := by
      simp only [nodes_append, nodes_cons_node, nodes_cons_sep, List.mem_append, List.mem_cons]
        at hv ⊢
      tauto
    have hnd' := hnd.of_append_left
    simp only [nodes_append, nodes_cons_node, nodes_cons_sep, List.nodup_middle, List.nodup_cons,
      List.mem_append, List.mem_cons] at hnd'
    rw [List.mem_append] at hv
    refine ⟨?_, ?_, ?_⟩
    · rintro rfl
      exact hnd'.1 (by tauto)
    · rintro rfl
      exact hnd'.2.1 (by tauto)
    · rintro rfl
      exact hlevel.row_notMem hrow hp
  have hrow : nodes (a ++ ([.node g, .sep x', .node e] ++ b)) =
      nodes (a ++ .node g :: .sep x :: .node e :: b) := by simp
  have hlink : Linked (links st') invalidOffset (nodes (a ++ ([.node g, .sep x', .node e] ++ b)))
      invalidOffset := by
    rw [hrow]
    exact hlevel.linked.congr fun v _ ↦ h.links v
  have hup' := Upper.rebuild [.node g, .sep x, .node e] [.node g, .sep x', .node e] hlevel.inner
    (List.cons_ne_nil _ _)
    (fun v hv ↦ h.content v (hside hv).1 (hside hv).2.1 (hside hv).2.2)
    (fun v hv ↦ h.par v fun hm ↦ (hlevel.rest hw hv).2 (hnodes ▸ hmoved hm)) (fun v hv ↦ ?_)
    hlink (upper_of_shifted h hlevel hpair hmlow)
  · rw [expand_cons_node, expand_cons_sep, expand_cons_node, row_eq h.left, row_eq h.right,
      expand_nil, List.append_nil, ← hw] at hup'
    refine ⟨st', _, hrep, hup', ?_,
      ⟨fun v hv ↦ ?_, fun v _ ↦ h.links v, fun v _ hv' ↦ h.par v fun hm ↦ hv' ?_,
        longer_of_eq _ (congrArg Header.fileSize h.header)⟩, ?_⟩
    · rw [offsets, List.flatMap_cons, hrow]
      exact hlevel.alloc.of_header h.header
    · exact h.content v (hgep hv).1 (hgep hv).2.1 (hgep hv).2.2
    · rw [hw, nodes_append, nodes_append, hnodes]
      exact List.mem_append_right _ (List.mem_append_left _ (hmoved hm))
    · have hl : st'.level = st.level := congrArg Header.level h.header
      rw [hl]
      rfl
  · have hv' : v = g ∨ v = e := by simpa using hv
    rcases hv' with rfl | rfl
    · exact ⟨cg, h.left, hokg (by simp), hpar.1⟩
    · exact ⟨ce, h.right, hoke (by simp), hpar.2⟩

end Shift

end MqssdModel.BPlusTree.RemoveCascade
