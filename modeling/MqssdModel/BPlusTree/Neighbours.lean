import MqssdModel.BPlusTree.InsertSplit
import MqssdModel.BPlusTree.Rebalance

namespace MqssdModel.BPlusTree.Neighbours

open Data.Arrays Data.Rows Data.Chain Data.TotalRun Machine Caching Routines Removal Views Shape
  Allocation Pending Splitting Search Steps InsertCascade InsertSplit Siblings RemoveCascade

/-- The node `q` between `u₁` and `u₂` on its level has got too small; it is in a cache as `n`, and
its parent is `p`. The keys before and after it in `p` are `ks₁` and `ks₂`. -/
structure Spot (cf : Config) (st : Store) (low : List ℤ) (u₁ : Row) (q : ℤ) (u₂ U₁ : Row) (p : ℤ)
    (U₂ : Row) (us : List Row) (c : Content) (ks₁ ks₂ vs₁ vs₂ : List ℤ) (n : Node) (key : ℤ) :
    Prop where
  upper : Upper cf st (u₁ ++ .node q :: u₂) ((U₁ ++ .node p :: U₂) :: us)
  place : Place cf st u₁ q u₂ U₁ p U₂ c ks₁ ks₂ vs₁ vs₂
  linked : Linked (links st) invalidOffset (nodes (u₁ ++ .node q :: u₂)) invalidOffset
  alloc : Alloc cf st
    (low ++ (nodes (u₁ ++ .node q :: u₂) ++ offsets ((U₁ ++ .node p :: U₂) :: us)))
  present : ∀ v ∈ nodes (u₁ ++ .node q :: u₂), (st.disk v).isSome
  sorted : (seps (u₁ ++ .node q :: u₂)).Pairwise (· < ·)
  disk : st.disk q = some (block n)
  self : n.self = q
  before : ∀ x ∈ ks₁, x ≤ key
  after : ∀ x ∈ ks₂, key < x

variable {cf : Config} {t : Tree} {st : Store} {nc pc : Ptr} {low : List ℤ} {u₁ u₂ U₁ U₂ : Row}
  {us : List Row} {q p key : ℤ} {c : Content} {ks₁ ks₂ vs₁ vs₂ : List ℤ} {n pn : Node}
  {lsib rsib : Option Ptr} {lopt ropt : List (Ptr × Node)} {α : Type} {Q : α → Tree → Prop}

namespace Spot

variable (h : Spot cf st low u₁ q u₂ U₁ p U₂ us c ks₁ ks₂ vs₁ vs₂ n key)

include h

theorem links_eq : n.prev = (nodes u₁).getLastD invalidOffset ∧
    n.next = (nodes u₂).headD invalidOffset := by
  have hl := h.linked
  rw [nodes_append, nodes_cons_node] at hl
  have hm := hl.middle
  rw [links, h.disk, Option.map_some, Option.some.injEq] at hm
  exact ⟨congrArg Prod.fst hm, congrArg Prod.snd hm⟩

theorem prev_mem : n.prev = invalidOffset ∨ n.prev ∈ nodes u₁ := by
  rw [h.links_eq.1]
  exact getLastD_mem.symm

theorem next_mem : n.next = invalidOffset ∨ n.next ∈ nodes u₂ := by
  rw [h.links_eq.2]
  exact headD_mem.symm

theorem parent_eq : n.parent = p := by
  have hp := h.place.par q (by rw [h.place.vals]; simp)
  rw [par, h.disk, Option.map_some, Option.some.injEq] at hp
  exact hp

theorem nodup : (nodes u₁ ++ q :: nodes u₂).Nodup := by
  have hn := h.alloc.nodup.of_append_left.of_append_right.of_append_left
  rwa [nodes_append, nodes_cons_node] at hn

theorem row_notMem {v : ℤ} (hv : v ∈ nodes (u₁ ++ .node q :: u₂)) :
    v ∉ offsets ((U₁ ++ .node p :: U₂) :: us) :=
  List.disjoint_of_nodup_append h.alloc.nodup.of_append_left.of_append_right hv

theorem row_ne_invalid (hcf : Sized cf) {v : ℤ} (hv : v ∈ nodes (u₁ ++ .node q :: u₂)) :
    v ≠ invalidOffset :=
  h.alloc.ne_invalid hcf (List.mem_append_right _ (List.mem_append_left _ hv))

theorem parent_ne (hcf : Sized cf) : p ≠ invalidOffset := by
  refine h.alloc.ne_invalid hcf (List.mem_append_right _ (List.mem_append_right _ ?_))
  exact List.mem_append_left _ mem_nodes_middle

theorem row_ne_parent {v : ℤ} (hv : v ∈ nodes (u₁ ++ .node q :: u₂)) : v ≠ p := by
  rintro rfl
  exact h.row_notMem hv (List.mem_append_left _ mem_nodes_middle)

/-- A neighbour on the level is one of the other nodes of the row, if there is one. -/
theorem fetch_neighbour (hcf : Sized cf) {v : ℤ} (hv : v = invalidOffset ∨
      v ∈ nodes u₁ ++ nodes u₂) (hl : Away lopt v) :
    v = invalidOffset ∨ Present st v ∧ Away (lopt ++ [(nc, n)]) v := by
  refine hv.imp_right fun hv ↦ ?_
  have hm : v ∈ nodes (u₁ ++ .node q :: u₂) := by
    simp only [nodes_append, nodes_cons_node, List.mem_append, List.mem_cons] at hv ⊢
    tauto
  have hne : v ≠ q := by
    have hn := h.nodup
    rw [List.nodup_middle, List.nodup_cons] at hn
    exact fun he ↦ hn.1 (he ▸ hv)
  refine ⟨⟨h.row_ne_invalid hcf hm, h.present v hm⟩, fun x hx ↦ ?_⟩
  rcases List.mem_append.mp hx with hx | hx
  · exact hl x hx
  · rw [List.mem_singleton.mp hx]
    dsimp only
    rw [h.self]
    exact hne.symm

theorem content_parent {bp : Block} (hbp : st.disk p = some bp) : Block.content bp = c := by
  have hc := h.place.content
  rw [content, hbp, Option.map_some, Option.some.injEq] at hc
  exact hc

theorem exists_parent : ∃ bp, st.disk p = some bp := by
  obtain ⟨bp, hbp, -⟩ := Option.map_eq_some_iff.mp h.place.content
  exact ⟨bp, hbp⟩

/-- The three fetches before a node is rebalanced. -/
theorem fetch_bind (hcf : Sized cf) (hself : ∀ v bv, st.disk v = some bv → bv.self = v)
    (hrep : Rep t st [(nc, n)]) {g : Option Ptr → Option Ptr → Ptr → M α}
    (hg : ∀ t' lsib rsib pc lopt ropt pn,
      Rep t' st ((pc, pn) :: (ropt ++ (lopt ++ [(nc, n)]))) → Neighbour st n.prev lsib lopt →
      Neighbour st n.next rsib ropt → st.disk p = some (block pn) →
      Runs (g lsib rsib pc) t' Q) :
    Runs (do
      let lsib ← nodeFetch n.prev
      let rsib ← nodeFetch n.next
      let parent ← deref (← nodeFetch n.parent)
      g lsib rsib parent) t Q := by
  obtain ⟨hprev, hnext⟩ := h.links_eq
  have hvl := h.prev_mem.imp_right (List.mem_append_left (nodes u₂))
  have hvr := h.next_mem.imp_right (List.mem_append_right (nodes u₁))
  have hsib {v : ℤ} {s : Option Ptr} {opt : List (Ptr × Node)} (hn : Neighbour st v s opt) :
      ∀ x ∈ opt, x.2.self = v ∧ v ≠ invalidOffset := by
    cases hn with
    | null => exact fun x hx ↦ absurd hx List.not_mem_nil
    | node hv hb =>
      intro x hx
      rw [List.mem_singleton.mp hx]
      exact ⟨hself _ _ hb, hv⟩
  have hin {v : ℤ} (hv : v ∈ nodes u₁ ++ nodes u₂) : v ∈ nodes (u₁ ++ .node q :: u₂) := by
    simp only [nodes_append, nodes_cons_node, List.mem_append, List.mem_cons] at hv ⊢
    tauto
  refine (fetch_run hrep (h.fetch_neighbour hcf hvl away_nil) (by simp)).seq ?_
  rintro lsib t₁ ⟨lopt, hln, h₁⟩
  have hlen := hln.length_le
  refine (fetch_run h₁ (hvr.elim Or.inl fun hv ↦ h.fetch_neighbour hcf hvr ?_)
    (by simp; omega)).seq ?_
  · intro x hx
    obtain ⟨hx, hinv⟩ := hsib hln x hx
    have hl := hprev ▸ getLastD_mem.resolve_right (hprev ▸ hinv)
    have hr := hnext ▸ headD_mem.resolve_right (hnext ▸ h.row_ne_invalid hcf (hin hv))
    rw [hx]
    intro he
    exact List.disjoint_of_nodup_append h.nodup hl (List.mem_cons_of_mem _ (he ▸ hr))
  rintro rsib t₂ ⟨ropt, hrn, h₂⟩
  have hlen' := hrn.length_le
  obtain ⟨bp, hbp⟩ := h.exists_parent
  rw [h.parent_eq]
  refine (h₂.fetch (h.parent_ne hcf) hbp ?_ (by simp; omega)).seq ?_
  · intro x hx
    simp only [List.mem_append] at hx
    rcases hx with hx | hx | hx
    · obtain ⟨hx, hinv⟩ := hsib hrn x hx
      rw [hx]
      exact h.row_ne_parent (hin (hvr.resolve_left hinv))
    · obtain ⟨hx, hinv⟩ := hsib hln x hx
      rw [hx]
      exact h.row_ne_parent (hin (hvl.resolve_left hinv))
    · rw [List.mem_singleton.mp hx]
      dsimp only
      rw [h.self]
      exact h.row_ne_parent mem_nodes_middle
  rintro _ t₃ ⟨pc, pn, rfl, rfl, h₃⟩
  exact deref_bind (hg t₃ lsib rsib pc lopt ropt pn h₃ hln hrn hbp)

theorem next_ne (hcf : Sized cf) {v : ℤ} (hv : v ∈ low ∨ v ∈ nodes u₁ ++ [q]) :
    n.next ≠ v := by
  have hnd := h.alloc.nodup.of_append_left
  have hmem : v ∈ low ++ (nodes (u₁ ++ .node q :: u₂) ++ offsets ((U₁ ++ .node p :: U₂) :: us)) := by
    simp only [nodes_append, nodes_cons_node, List.mem_append, List.mem_cons, List.not_mem_nil,
      or_false] at hv ⊢
    tauto
  rw [h.links_eq.2]
  refine (ne_headD (fun hm ↦ ?_) (h.alloc.ne_invalid hcf hmem)).symm
  rcases hv with hv | hv
  · exact List.disjoint_of_nodup_append hnd hv (List.mem_append_left _ (by simp [hm]))
  · have hn := h.nodup
    rw [List.append_cons] at hn
    exact List.disjoint_of_nodup_append hn hv hm

theorem prev_ne (hcf : Sized cf) {v : ℤ} (hv : v ∈ low ∨ v ∈ q :: nodes u₂) : n.prev ≠ v := by
  have hnd := h.alloc.nodup.of_append_left
  have hmem : v ∈ low ++ (nodes (u₁ ++ .node q :: u₂) ++ offsets ((U₁ ++ .node p :: U₂) :: us)) := by
    simp only [nodes_append, nodes_cons_node, List.mem_append, List.mem_cons] at hv ⊢
    tauto
  rw [h.links_eq.1]
  refine (ne_getLastD (fun hm ↦ ?_) (h.alloc.ne_invalid hcf hmem)).symm
  rcases hv with hv | hv
  · exact List.disjoint_of_nodup_append hnd hv (List.mem_append_left _ (by simp [hm]))
  · exact List.disjoint_of_nodup_append h.nodup hm hv

theorem cap_parent : (ks₁.length + ks₂.length + 1 : ℕ) ≤ cf.maxOrder := by
  have hcap := h.place.ok.cap
  have hl := h.place.left_length
  have hr := h.place.right_length
  rw [h.place.vals, List.length_append, List.length_cons] at hcap
  omega

section Parent

variable (hpn : st.disk p = some (block pn))

include hpn

theorem inner_parent : Inner pn (ks₁.length + ks₂.length) := by
  have hc := h.content_parent hpn
  have hok := h.place.ok
  have hvals := h.place.vals
  have hl := h.place.left_length
  have hr := h.place.right_length
  rw [← hc] at hok hvals
  refine Inner.of_block hok.kind (hok.count.trans ?_)
  rw [hvals, List.length_append, List.length_cons]
  omega

theorem keys_parent : (block pn).keys = ks₁ ++ ks₂ :=
  (congrArg Content.keys (h.content_parent hpn)).trans h.place.keys

theorem vals_parent : (block pn).vals = vs₁ ++ q :: vs₂ :=
  (congrArg Content.vals (h.content_parent hpn)).trans h.place.vals

theorem sorted_parent : (ks₁ ++ ks₂).Pairwise (· < ·) := by
  have hs := h.sorted
  simp only [h.place.left, h.place.right, seps_append, seps_cons_node,
    seps_lefts h.place.left_length, seps_rights h.place.right_length, List.append_assoc] at hs
  have hs' := (List.pairwise_append.mp hs).2.1
  rw [← List.append_assoc] at hs'
  exact (List.pairwise_append.mp hs').1

theorem index : parentKeyIndex pn key = ks₁.length - 1 := by
  have hin := h.inner_parent hpn
  refine parentKeyIndex_eq ?_ (h.keys_parent hpn) (h.sorted_parent hpn) h.before h.after
  rw [keyCount, isLeaf, hin.type, hin.children]
  simp only [reduceCtorEq, decide_false, Bool.false_eq_true, if_false]
  omega

theorem two_parent : 1 ≤ ks₁.length + ks₂.length := by
  have htwo := h.place.ok.two
  have hl := h.place.left_length
  have hr := h.place.right_length
  rw [h.place.vals, List.length_append, List.length_cons] at htwo
  omega

/-- The sibling that is chosen has the same parent. -/
theorem select_run {live : List (Ptr × Node)} (hrep : Rep t st live) (hp : (pc, pn) ∈ live)
    (hl : ∀ x ∈ lopt, x ∈ live) (hr : ∀ x ∈ ropt, x ∈ live)
    (hln : Neighbour st n.prev lsib lopt) (hrn : Neighbour st n.next rsib ropt)
    (hprev : 0 < ks₁.length → n.prev ≠ invalidOffset)
    (hnext : 0 < ks₂.length → n.next ≠ invalidOffset) :
    Runs (siblingSelect lsib rsib pc (ks₁.length - 1)) t fun x t' ↦ t' = t ∧
      (x = .left ∧ 0 < ks₁.length ∨ x = .right ∧ 0 < ks₂.length) := by
  have htwo := h.two_parent hpn
  have hin := h.inner_parent hpn
  unfold siblingSelect
  by_cases hfirst : ks₁.length = 0
  · rw [if_pos (by omega)]
    exact runs_pure ⟨rfl, Or.inr ⟨rfl, by omega⟩⟩
  · rw [if_neg (by omega)]
    refine hrep.node_bind hp ?_
    rw [hin.children]
    by_cases hlast : ks₂.length = 0
    · rw [if_pos (by omega)]
      exact runs_pure ⟨rfl, Or.inl ⟨rfl, by omega⟩⟩
    · rw [if_neg (by omega)]
      cases hln with
      | null hi => exact absurd hi (hprev (by omega))
      | @node lc ln _ _ =>
        cases hrn with
        | null hi => exact absurd hi (hnext (by omega))
        | @node rc rn _ _ =>
          refine deref_bind (hrep.node_bind (hl _ List.mem_cons_self) ?_)
          refine deref_bind (hrep.node_bind (hr _ List.mem_cons_self) ?_)
          by_cases hle : ln.children ≥ rn.children
          · rw [if_pos hle]
            exact runs_pure ⟨rfl, Or.inl ⟨rfl, by omega⟩⟩
          · rw [if_neg hle]
            exact runs_pure ⟨rfl, Or.inr ⟨rfl, by omega⟩⟩

end Parent

end Spot

end MqssdModel.BPlusTree.Neighbours
