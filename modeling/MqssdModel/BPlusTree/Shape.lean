import MqssdModel.BPlusTree.Allocation
import MqssdModel.Data.Chain
import MqssdModel.Data.Rows

namespace MqssdModel.BPlusTree.Shape

open Data.Rows Data.Chain Machine Caching Routines Views Allocation

/-- One level of the tree from left to right: the offsets of its nodes, and between them the
keys of the levels above. -/
abbrev Row := List (Item ℤ ℤ)

/-- The children of the non-leaf at `o` with its keys between them. -/
def row (st : Store) (o : ℤ) : Row :=
  match content st o with
  | some c => weave c.keys c.vals
  | none => []

structure InnerOk (cf : Config) (u : Row) (c : Content) : Prop where
  kind : c.kind = .nonLeaf
  count : c.count = c.vals.length
  keys : c.vals.length = c.keys.length + 1
  two : 2 ≤ c.vals.length
  cap : c.vals.length ≤ cf.maxOrder
  half : 1 < u.length → cf.maxOrder / 2 ≤ c.vals.length

structure LeafOk (cf : Config) (w : Row) (c : Content) : Prop where
  kind : c.kind = .leaf
  count : c.count = c.vals.length
  keys : c.keys.length = c.vals.length
  one : 1 ≤ c.vals.length
  cap : c.vals.length ≤ cf.maxEntries
  half : 1 < w.length → (cf.maxEntries + 1) / 2 ≤ c.vals.length

/-- The non-leaf at `o` is well formed and the parent of its children. -/
def InnerAt (cf : Config) (st : Store) (u : Row) (o : ℤ) : Prop :=
  ∃ c, content st o = some c ∧ InnerOk cf u c ∧ ∀ v ∈ c.vals, par st v = some o

/-- The levels above the row `w`, from the one right above it up to the root. -/
def Upper (cf : Config) (st : Store) : Row → List Row → Prop
  | w, [] => w = [.node st.root] ∧ par st st.root = some invalidOffset
  | w, u :: us => w = expand (row st) u ∧ (∀ o ∈ nodes u, InnerAt cf st u o) ∧
      Linked (links st) invalidOffset (nodes u) invalidOffset ∧ Upper cf st u us

/-- The leaves. -/
structure Leaves (cf : Config) (st : Store) (w : Row) : Prop where
  leaf : ∀ o ∈ nodes w, ∃ c, content st o = some c ∧ LeafOk cf w c
  linked : Linked (links st) invalidOffset (nodes w) invalidOffset

/-- The offsets of the nodes on several levels. -/
def offsets (us : List Row) : List ℤ := us.flatMap nodes

variable {cf : Config} {st st' : Store} {u u' w : Row} {us us' : List Row} {o q : ℤ} {c : Content}

theorem row_eq (h : content st o = some c) : row st o = weave c.keys c.vals := by
  rw [row, h]

theorem row_congr (h : content st' o = content st o) : row st' o = row st o := by
  rw [row, h, row]

theorem InnerOk.nodes_row (h : InnerOk cf u c) (hc : content st o = some c) :
    nodes (row st o) = c.vals := by
  rw [row_eq hc, nodes_weave h.keys]

theorem InnerOk.mono (h : InnerOk cf u c) (hu : 1 < u'.length → 1 < u.length) :
    InnerOk cf u' c :=
  ⟨h.kind, h.count, h.keys, h.two, h.cap, fun h' ↦ h.half (hu h')⟩

theorem mem_nodes_expand {v : ℤ} (hu : ∀ o ∈ nodes u, InnerAt cf st w o) :
    v ∈ nodes (expand (row st) u) ↔ ∃ o ∈ nodes u, ∃ c, content st o = some c ∧ v ∈ c.vals := by
  rw [nodes_expand, List.mem_flatMap]
  constructor
  · rintro ⟨o, ho, hv⟩
    obtain ⟨c, hc, hok, -⟩ := hu o ho
    rw [hok.nodes_row hc] at hv
    exact ⟨o, ho, c, hc, hv⟩
  · rintro ⟨o, ho, c, hc, hv⟩
    obtain ⟨c', hc', hok, -⟩ := hu o ho
    rw [hc, Option.some.injEq] at hc'
    subst hc'
    exact ⟨o, ho, by rwa [hok.nodes_row hc]⟩

theorem Upper.congr (h : Upper cf st w us) (hroot : st'.root = st.root)
    (hd : ∀ o ∈ offsets us, st'.disk o = st.disk o)
    (hp : ∀ o ∈ nodes w, par st' o = par st o) : Upper cf st' w us := by
  induction us generalizing w with
  | nil =>
    obtain ⟨rfl, hpar⟩ := h
    refine ⟨by rw [hroot], ?_⟩
    rw [hroot, hp _ List.mem_cons_self, hpar]
  | cons u us ih =>
    obtain ⟨rfl, hin, hlink, hup⟩ := h
    have hdu : ∀ o ∈ nodes u, st'.disk o = st.disk o := fun o ho ↦
      hd o (List.mem_append_left _ ho)
    have hcu : ∀ o ∈ nodes u, content st' o = content st o := fun o ho ↦ by
      rw [content, hdu o ho, content]
    refine ⟨(expand_congr fun o ho ↦ row_congr (hcu o ho)).symm, fun o ho ↦ ?_,
      hlink.congr fun o ho ↦ by rw [links, hdu o ho, links],
      ih hup (fun o ho ↦ hd o (List.mem_append_right _ ho)) fun o ho ↦ by
        rw [par, hdu o ho, par]⟩
    obtain ⟨c, hc, hok, hpar⟩ := hin o ho
    refine ⟨c, (hcu o ho).trans hc, hok, fun v hv ↦ ?_⟩
    rw [hp v ((mem_nodes_expand hin).mpr ⟨o, ho, c, hc, hv⟩), hpar v hv]

/-- The node `o` between the parts `a` and `b` of its row is a child of `q`, which stands between
`u₁` and `u₂` in the row above. -/
structure Place (cf : Config) (st : Store) (a : Row) (o : ℤ) (b u₁ : Row) (q : ℤ) (u₂ : Row)
    (c : Content) (ks₁ ks₂ vs₁ vs₂ : List ℤ) : Prop where
  content : content st q = some c
  ok : InnerOk cf (u₁ ++ .node q :: u₂) c
  par : ∀ v ∈ c.vals, par st v = some q
  keys : c.keys = ks₁ ++ ks₂
  vals : c.vals = vs₁ ++ o :: vs₂
  left_length : ks₁.length = vs₁.length
  right_length : ks₂.length = vs₂.length
  left : a = expand (row st) u₁ ++ lefts ks₁ vs₁
  right : b = rights ks₂ vs₂ ++ expand (row st) u₂

theorem Upper.locate {a b : Row} (h : Upper cf st (a ++ .node o :: b) (u :: us))
    (hn : (nodes (a ++ .node o :: b)).Nodup) : ∃ u₁ q u₂ c ks₁ ks₂ vs₁ vs₂,
      u = u₁ ++ .node q :: u₂ ∧ Place cf st a o b u₁ q u₂ c ks₁ ks₂ vs₁ vs₂ := by
  obtain ⟨hw, hin, -, -⟩ := h
  have ho : o ∈ nodes (expand (row st) u) := by
    rw [← hw, nodes_append, nodes_cons_node]
    exact List.mem_append_right _ List.mem_cons_self
  obtain ⟨q, hq, c, hc, hv⟩ := (mem_nodes_expand hin).mp ho
  obtain ⟨c', hc', hok, hpar⟩ := hin q hq
  rw [hc, Option.some.injEq] at hc'
  subst hc'
  obtain ⟨u₁, u₂, rfl⟩ := exists_focus hq
  obtain ⟨vs₁, vs₂, hvals⟩ := List.append_of_mem hv
  have hlen := hok.keys
  rw [hvals, List.length_append, List.length_cons] at hlen
  have hkeys := (List.take_append_drop vs₁.length c.keys).symm
  have h₁ : (c.keys.take vs₁.length).length = vs₁.length := by rw [List.length_take]; omega
  have h₂ : (c.keys.drop vs₁.length).length = vs₂.length := by rw [List.length_drop]; omega
  have hrow := row_eq hc
  rw [hkeys, hvals, weave_focus h₁ h₂] at hrow
  rw [expand_append, expand_cons_node, hrow, List.append_assoc, List.cons_append,
    ← List.append_assoc] at hw
  obtain ⟨ha, hb⟩ := node_unique hw hn
  exact ⟨u₁, q, u₂, c, _, _, vs₁, vs₂, rfl, hc, hok, hpar, hkeys, hvals, h₁, h₂, ha, hb⟩

theorem length_pos_of_mem_nodes (h : o ∈ nodes u) : 0 < u.length :=
  List.length_pos_of_mem (mem_nodes.mp h)

/-- A non-leaf that is not touched, whose children keep their parent. -/
theorem InnerAt.congr (h : InnerAt cf st u o) (hu : 1 < u'.length → 1 < u.length)
    (hc : content st' o = content st o)
    (hp : ∀ v ∈ nodes (row st o), par st' v = par st v) : InnerAt cf st' u' o := by
  obtain ⟨c, hco, hok, hpar⟩ := h
  refine ⟨c, hc.trans hco, hok.mono hu, fun v hv ↦ ?_⟩
  rw [hp v (by rwa [hok.nodes_row hco]), hpar v hv]

theorem nodes_row_sublist (h : o ∈ nodes u) :
    (nodes (row st o)).Sublist (nodes (expand (row st) u)) := by
  obtain ⟨a, b, rfl⟩ := exists_focus h
  rw [expand_append, expand_cons_node, nodes_append, nodes_append]
  exact (List.sublist_append_left _ _).trans (List.sublist_append_right _ _)

theorem nodes_row_subset (h : o ∈ nodes u) : nodes (row st o) ⊆ nodes (expand (row st) u) :=
  (nodes_row_sublist h).subset

/-- One level of the tree with the part `m` of its row replaced by `m'`. -/
theorem Upper.rebuild {u₁ u₂ : Row} (m m' : Row) (hin : ∀ o ∈ nodes (u₁ ++ (m ++ u₂)),
      InnerAt cf st (u₁ ++ (m ++ u₂)) o) (hm : m ≠ [])
    (hc : ∀ o ∈ nodes u₁ ++ nodes u₂, content st' o = content st o)
    (hp : ∀ v ∈ nodes (expand (row st) u₁) ++ nodes (expand (row st) u₂), par st' v = par st v)
    (hm' : ∀ o ∈ nodes m', InnerAt cf st' (u₁ ++ (m' ++ u₂)) o)
    (hlink : Linked (links st') invalidOffset (nodes (u₁ ++ (m' ++ u₂))) invalidOffset)
    (hup : Upper cf st' (u₁ ++ (m' ++ u₂)) us) :
    Upper cf st' (expand (row st) u₁ ++ (expand (row st') m' ++ expand (row st) u₂))
      ((u₁ ++ (m' ++ u₂)) :: us) := by
  have hlen : 0 < m.length := List.length_pos_iff.mpr hm
  have hrow₁ : expand (row st') u₁ = expand (row st) u₁ :=
    expand_congr fun o ho ↦ row_congr (hc o (List.mem_append_left _ ho))
  have hrow₂ : expand (row st') u₂ = expand (row st) u₂ :=
    expand_congr fun o ho ↦ row_congr (hc o (List.mem_append_right _ ho))
  refine ⟨by simp only [expand_append, hrow₁, hrow₂], fun o ho ↦ ?_, hlink, hup⟩
  simp only [nodes_append, List.mem_append] at hin ho hc hp
  rcases ho with ho | ho | ho
  · have hpos := length_pos_of_mem_nodes ho
    exact (hin o (Or.inl ho)).congr (fun _ ↦ by simp only [List.length_append]; omega)
      (hc o (Or.inl ho)) fun v hv ↦ hp v (Or.inl (nodes_row_subset ho hv))
  · exact hm' o ho
  · have hpos := length_pos_of_mem_nodes ho
    exact (hin o (Or.inr (Or.inr ho))).congr (fun _ ↦ by simp only [List.length_append]; omega)
      (hc o (Or.inr ho)) fun v hv ↦ hp v (Or.inr (nodes_row_subset ho hv))

end MqssdModel.BPlusTree.Shape
