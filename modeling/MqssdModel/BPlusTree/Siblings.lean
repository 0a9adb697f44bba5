import MqssdModel.BPlusTree.InsertCascade

namespace MqssdModel.BPlusTree.Siblings

open Data.Rows Data.Chain Machine Caching Routines Views Shape Allocation Pending InsertCascade

/-- The neighbours `g` and `e` with the key `x` between them are children of `p`. -/
structure Pair (cf : Config) (st : Store) (a : Row) (g x e : ℤ) (b u₁ : Row) (p : ℤ) (u₂ : Row)
    (c : Content) (ks₁ ks₂ vs₁ vs₂ : List ℤ) : Prop where
  content : content st p = some c
  ok : InnerOk cf (u₁ ++ .node p :: u₂) c
  par : ∀ v ∈ c.vals, par st v = some p
  keys : c.keys = ks₁ ++ x :: ks₂
  vals : c.vals = vs₁ ++ g :: e :: vs₂
  left_length : ks₁.length = vs₁.length
  right_length : ks₂.length = vs₂.length
  left : a = expand (row st) u₁ ++ lefts ks₁ vs₁
  right : b = rights ks₂ vs₂ ++ expand (row st) u₂

/-- The node `e` has been merged into its neighbour `g`, which holds `cg` now; the children
`moved` have changed from `e` to `g`. The block of `e` is free. -/
structure Merged (st st₁ : Store) (a : Row) (g e : ℤ) (b : Row) (moved : List ℤ) (cg : Content) :
    Prop where
  content : ∀ v, v ≠ g → content st₁ v = content st v
  self : Views.content st₁ g = some cg
  par : ∀ v, v ∉ moved → par st₁ v = par st v
  adopted : ∀ v ∈ moved, Views.par st₁ v = some g
  links : ∀ v, v ∉ nodes (a ++ .node g :: .node e :: b) → v ≠ invalidOffset →
    links st₁ v = links st v
  linked : Linked (Views.links st₁) invalidOffset (nodes a ++ g :: nodes b) invalidOffset
  disk : ∀ v, v ∉ nodes (a ++ .node g :: .node e :: b) → v ∉ moved → v ≠ invalidOffset →
    st₁.disk v = st.disk v
  header : header st₁ = header (st.release e)

/-- Something has been moved between the neighbours `g` and `e`, which hold `cg` and `ce` now,
and the key between them in their parent `p` has changed. -/
structure Shifted (st st' : Store) (g e p : ℤ) (moved : List ℤ) (cg ce cp : Content) : Prop where
  content : ∀ v, v ≠ g → v ≠ e → v ≠ p → content st' v = content st v
  left : Views.content st' g = some cg
  right : Views.content st' e = some ce
  parent : Views.content st' p = some cp
  par : ∀ v, v ∉ moved → par st' v = par st v
  links : ∀ v, links st' v = links st v
  disk : ∀ v, v ≠ g → v ≠ e → v ≠ p → v ∉ moved → st'.disk v = st.disk v
  header : header st' = header st

/-- The neighbours `l` and `r` have been merged into `l`, which is still to be told to their
parent `q`; `low` are the offsets in use on their level and below. -/
structure Lack (cf : Config) (st : Store) (a : Row) (l k r : ℤ) (b : Row) (low : List ℤ)
    (us : List Row) (u₁ : Row) (q : ℤ) (u₂ : Row) (c : Content) (ks₁ ks₂ vs₁ vs₂ : List ℤ) :
    Prop where
  upper : Upper cf st (a ++ .node l :: .sep k :: .node r :: b) ((u₁ ++ .node q :: u₂) :: us)
  pair : Pair cf st a l k r b u₁ q u₂ c ks₁ ks₂ vs₁ vs₂
  sorted : (seps (a ++ .node l :: .sep k :: .node r :: b)).Pairwise (· < ·)
  nodup : (nodes (a ++ .node l :: b)).Nodup
  sub : nodes (a ++ .node l :: b) ⊆ low
  alloc : Alloc cf st (low ++ offsets ((u₁ ++ .node q :: u₂) :: us))

variable {cf : Config} {st st₁ st' : Store} {a b u₁ u₂ : Row} {us : List Row} {o g x x' e p q : ℤ}
  {c cg ce cp : Content} {ks₁ ks₂ vs₁ vs₂ moved low : List ℤ}

theorem pair_left (h : Place cf st a o b u₁ p u₂ c ks₁ ks₂ vs₁ vs₂) (hne : 0 < ks₁.length) :
    ∃ a' g x ks vs, a = a' ++ [.node g, .sep x] ∧ ks₁ = ks ++ [x] ∧ vs₁ = vs ++ [g] ∧
      Pair cf st a' g x o b u₁ p u₂ c ks ks₂ vs vs₂ := by
  have hlen := h.left_length
  obtain ⟨ks, x, rfl⟩ := (List.eq_nil_or_concat' ks₁).resolve_left (List.ne_nil_of_length_pos hne)
  obtain ⟨vs, g, rfl⟩ := (List.eq_nil_or_concat' vs₁).resolve_left
    (List.ne_nil_of_length_pos (hlen ▸ hne))
  have hlen' : ks.length = vs.length := by simpa using hlen
  refine ⟨expand (row st) u₁ ++ lefts ks vs, g, x, ks, vs, ?_, rfl, rfl, h.content, h.ok, h.par,
    ?_, ?_, hlen', h.right_length, rfl, h.right⟩
  · rw [h.left, lefts_concat hlen', List.append_assoc]
  · rw [h.keys, List.append_assoc]
    rfl
  · rw [h.vals, List.append_assoc]
    rfl

theorem pair_right (h : Place cf st a o b u₁ p u₂ c ks₁ ks₂ vs₁ vs₂) (hne : 0 < ks₂.length) :
    ∃ b' x e ks vs, b = .sep x :: .node e :: b' ∧ ks₂ = x :: ks ∧ vs₂ = e :: vs ∧
      Pair cf st a o x e b' u₁ p u₂ c ks₁ ks vs₁ vs := by
  have hlen := h.right_length
  obtain ⟨x, ks, rfl⟩ := List.exists_cons_of_length_pos hne
  obtain ⟨e, vs, rfl⟩ := List.exists_cons_of_length_pos (hlen ▸ hne)
  refine ⟨rights ks vs ++ expand (row st) u₂, x, e, ks, vs, ?_, rfl, rfl, h.content, h.ok, h.par,
    h.keys, h.vals, h.left_length, by simpa using hlen, h.left, rfl⟩
  rw [h.right]
  rfl

namespace Pair

variable (h : Pair cf st a g x e b u₁ p u₂ c ks₁ ks₂ vs₁ vs₂)

include h

theorem mem_vals : g ∈ c.vals ∧ e ∈ c.vals := by
  rw [h.vals]
  simp

/-- The same pair in a store in which the levels above it have not changed. -/
theorem congr (hc : ∀ v ∈ nodes (u₁ ++ .node p :: u₂), Views.content st₁ v = Views.content st v)
    (hp : ∀ v ∈ c.vals, Views.par st₁ v = Views.par st v) :
    Pair cf st₁ a g x e b u₁ p u₂ c ks₁ ks₂ vs₁ vs₂ where
  content := (hc p mem_nodes_middle).trans h.content
  ok := h.ok
  par v hv := (hp v hv).trans (h.par v hv)
  keys := h.keys
  vals := h.vals
  left_length := h.left_length
  right_length := h.right_length
  left := by
    rw [h.left, expand_congr fun v hv ↦ row_congr (hc v (by simp [hv]))]
  right := by
    rw [h.right, expand_congr fun v hv ↦ row_congr (hc v (by simp [hv]))]

end Pair

/-- The key between two neighbours changes; the levels above do not. -/
theorem Upper.resep
    (h : Upper cf st (a ++ .node g :: .sep x :: .node e :: b) ((u₁ ++ .node p :: u₂) :: us))
    (hpair : Pair cf st a g x e b u₁ p u₂ c ks₁ ks₂ vs₁ vs₂)
    (hnd : (nodes (u₁ ++ .node p :: u₂) ++ offsets us).Nodup)
    (hroot : st'.root = st.root)
    (hc : content st' p = some { c with keys := ks₁ ++ x' :: ks₂ })
    (hlink : links st' p = links st p)
    (hdisk : ∀ v ∈ nodes (u₁ ++ .node p :: u₂) ++ offsets us, v ≠ p → st'.disk v = st.disk v)
    (hpar : ∀ v ∈ p :: nodes (a ++ .node g :: .node e :: b), par st' v = par st v) :
    Upper cf st' (a ++ .node g :: .sep x' :: .node e :: b) ((u₁ ++ .node p :: u₂) :: us) := by
  obtain ⟨-, hin, hlinked, hup⟩ := h
  have hp : p ∉ nodes u₁ ++ nodes u₂ ∧ p ∉ offsets us := by
    rw [nodes_append, nodes_cons_node] at hnd
    refine ⟨(List.nodup_cons.mp (List.nodup_middle.mp hnd.of_append_left)).1, ?_⟩
    exact List.disjoint_of_nodup_append hnd (by simp)
  have hother : ∀ v ∈ nodes u₁ ++ nodes u₂, st'.disk v = st.disk v := fun v hv ↦ by
    refine hdisk v ?_ fun he ↦ hp.1 (he ▸ hv)
    simp only [nodes_append, nodes_cons_node, List.mem_append, List.mem_cons] at hv ⊢
    tauto
  have hlinks : ∀ v ∈ nodes (u₁ ++ .node p :: u₂), links st' v = links st v := fun v hv ↦ by
    by_cases hvp : v = p
    · rw [hvp, hlink]
    · rw [links, hdisk v (List.mem_append_left _ hv) hvp, links]
  have hup' : Upper cf st' (u₁ ++ .node p :: u₂) us := by
    refine hup.congr hroot (fun v hv ↦ ?_) fun v hv ↦ ?_
    · exact hdisk v (List.mem_append_right _ hv) fun he ↦ hp.2 (he ▸ hv)
    · by_cases hvp : v = p
      · rw [hvp, hpar p List.mem_cons_self]
      · rw [par, hdisk v (List.mem_append_left _ hv) hvp, par]
  have hnodes : nodes (a ++ .node g :: .node e :: b) = nodes a ++ g :: e :: nodes b := by simp
  have hrebuilt := Upper.rebuild [.node p] [.node p] hin (List.cons_ne_nil _ _)
    (fun v hv ↦ by rw [content, hother v hv, content])
    (fun v hv ↦ hpar v (List.mem_cons_of_mem _ ?_)) (fun v hv ↦ ?_)
    (hlinked.congr fun v hv ↦ hlinks v hv) hup'
  · rw [expand_cons_node, row_eq hc, expand_nil, List.append_nil] at hrebuilt
    dsimp only at hrebuilt
    rw [hpair.vals, weave_pair hpair.left_length hpair.right_length] at hrebuilt
    rw [hpair.left, hpair.right]
    simpa using hrebuilt
  · rw [hnodes, hpair.left, hpair.right]
    simp only [nodes_append, List.mem_append, List.mem_cons] at hv ⊢
    tauto
  · obtain rfl : v = p := by simpa using hv
    have hok := hpair.ok
    have hlen : c.keys.length = (ks₁ ++ x' :: ks₂).length := by
      rw [hpair.keys]
      simp
    refine ⟨_, hc, ⟨hok.kind, hok.count, hlen ▸ hok.keys, hok.two, hok.cap, hok.half⟩, ?_⟩
    intro v hv
    rw [hpar v (List.mem_cons_of_mem _ ?_), hpair.par v hv]
    have hv' : v ∈ vs₁ ++ g :: e :: vs₂ := hpair.vals ▸ hv
    rw [hnodes, hpair.left, hpair.right]
    simp only [nodes_append, nodes_lefts hpair.left_length, nodes_rights hpair.right_length,
      List.mem_append, List.mem_cons] at hv' ⊢
    tauto

end MqssdModel.BPlusTree.Siblings
