import Mathlib.Data.List.Nodup
import Mathlib.Data.Nat.Notation

namespace MqssdModel.Data.Rows

variable {ι κ : Type*}

/-- A row is a list of nodes with separators between them. -/
inductive Item (ι κ : Type*)
  | node (o : ι)
  | sep (k : κ)

def Item.node? : Item ι κ → Option ι
  | node o => some o
  | sep _ => none

def Item.sep? : Item ι κ → Option κ
  | node _ => none
  | sep k => some k

def nodes (w : List (Item ι κ)) : List ι := w.filterMap Item.node?

def seps (w : List (Item ι κ)) : List κ := w.filterMap Item.sep?

section Projections

variable (w w' : List (Item ι κ)) (o : ι) (k : κ)

@[simp] theorem nodes_nil : nodes ([] : List (Item ι κ)) = [] := rfl

@[simp] theorem nodes_cons_node : nodes (.node o :: w) = o :: nodes w := rfl

@[simp] theorem nodes_cons_sep : nodes (.sep k :: w) = nodes w := rfl

@[simp] theorem nodes_append : nodes (w ++ w') = nodes w ++ nodes w' := List.filterMap_append

@[simp] theorem seps_nil : seps ([] : List (Item ι κ)) = [] := rfl

@[simp] theorem seps_cons_node : seps (.node o :: w) = seps w := rfl

@[simp] theorem seps_cons_sep : seps (.sep k :: w) = k :: seps w := rfl

@[simp] theorem seps_append : seps (w ++ w') = seps w ++ seps w' := List.filterMap_append

theorem mem_nodes {w : List (Item ι κ)} {o : ι} : o ∈ nodes w ↔ Item.node o ∈ w := by
  simp only [nodes, List.mem_filterMap]
  constructor
  · rintro ⟨x | x, hx, he⟩
    · cases he
      exact hx
    · cases he
  · exact fun h ↦ ⟨_, h, rfl⟩

theorem mem_nodes_middle {a c : List (Item ι κ)} {o : ι} : o ∈ nodes (a ++ .node o :: c) := by
  simp

/-- A node of a row without repetition has one place in it. -/
theorem node_unique {a c a' c' : List (Item ι κ)} {o : ι} (h : a ++ .node o :: c = a' ++ .node o :: c')
    (hn : (nodes (a ++ .node o :: c)).Nodup) : a = a' ∧ c = c' := by
  have hout : ∀ {a c : List (Item ι κ)}, (nodes (a ++ .node o :: c)).Nodup →
      Item.node o ∉ a ∧ Item.node o ∉ c := by
    intro a c hn
    rw [nodes_append, nodes_cons_node, List.nodup_middle, List.nodup_cons, List.mem_append,
      not_or, mem_nodes, mem_nodes] at hn
    exact hn.1
  obtain ⟨ha, hc⟩ := hout hn
  obtain ⟨h₁, -, h₂⟩ := (List.append_cons_inj_of_notMem ha hc).mp h
  exact ⟨h₁, h₂⟩

end Projections

/-- The row of the children `vs` with the keys `ks` between them. -/
def weave : List κ → List ι → List (Item ι κ)
  | _, [] => []
  | [], v :: _ => [.node v]
  | k :: ks, v :: vs => .node v :: .sep k :: weave ks vs

/-- Children, each with the key behind it. -/
def lefts : List κ → List ι → List (Item ι κ)
  | k :: ks, v :: vs => .node v :: .sep k :: lefts ks vs
  | _, _ => []

/-- Children, each with the key before it. -/
def rights : List κ → List ι → List (Item ι κ)
  | k :: ks, v :: vs => .sep k :: .node v :: rights ks vs
  | _, _ => []

section Weave

variable {ks ks' : List κ} {vs vs' : List ι} {k : κ} {v : ι}

theorem weave_append (h : ks.length = vs.length) (ks' : List κ) (vs' : List ι) :
    weave (ks ++ ks') (vs ++ vs') = lefts ks vs ++ weave ks' vs' := by
  induction ks generalizing vs with
  | nil =>
    obtain rfl := List.eq_nil_of_length_eq_zero h.symm
    rfl
  | cons k ks ih =>
    cases vs with
    | nil => exact absurd h (Nat.succ_ne_zero _)
    | cons v vs =>
      simp only [List.cons_append, weave, lefts, ih (Nat.succ.inj h)]

theorem weave_cons (h : ks.length = vs.length) (v : ι) :
    weave ks (v :: vs) = .node v :: rights ks vs := by
  induction ks generalizing v vs with
  | nil => rfl
  | cons k ks ih =>
    cases vs with
    | nil => exact absurd h (Nat.succ_ne_zero _)
    | cons v' vs => simp only [weave, rights, ih (Nat.succ.inj h)]

theorem lefts_concat (h : ks.length = vs.length) (k : κ) (v : ι) :
    lefts (ks ++ [k]) (vs ++ [v]) = lefts ks vs ++ [.node v, .sep k] := by
  induction ks generalizing vs with
  | nil =>
    obtain rfl := List.eq_nil_of_length_eq_zero h.symm
    rfl
  | cons k ks ih =>
    cases vs with
    | nil => exact absurd h (Nat.succ_ne_zero _)
    | cons v vs => simp only [List.cons_append, lefts, ih (Nat.succ.inj h)]

/-- A row cut at one of its keys. -/
theorem weave_concat (h : vs.length = ks.length + 1) (k : κ) (ks' : List κ) (vs' : List ι) :
    weave (ks ++ k :: ks') (vs ++ vs') = weave ks vs ++ .sep k :: weave ks' vs' := by
  induction ks generalizing vs with
  | nil =>
    obtain ⟨v, rfl⟩ := List.length_eq_one_iff.mp h
    rfl
  | cons k' ks ih =>
    cases vs with
    | nil => exact absurd h.symm (Nat.succ_ne_zero _)
    | cons v vs => simp only [List.cons_append, weave, ih (Nat.succ.inj h)]

theorem weave_cut {m : ℕ} (h : vs.length = ks.length + 1) (hk : ks[m]? = some k) :
    weave (ks.take m) (vs.take (m + 1)) ++ .sep k :: weave (ks.drop (m + 1)) (vs.drop (m + 1)) =
      weave ks vs := by
  obtain ⟨hm, rfl⟩ := List.getElem?_eq_some_iff.mp hk
  have hlen : (vs.take (m + 1)).length = (ks.take m).length + 1 := by
    rw [List.length_take, List.length_take]
    omega
  rw [← weave_concat hlen, List.take_append_drop, List.getElem_cons_drop, List.take_append_drop]

/-- The row around one of its children. -/
theorem weave_focus (h : ks.length = vs.length) (h' : ks'.length = vs'.length) (v : ι) :
    weave (ks ++ ks') (vs ++ v :: vs') = lefts ks vs ++ .node v :: rights ks' vs' := by
  rw [weave_append h, weave_cons h']

theorem nodes_weave (h : vs.length = ks.length + 1) : nodes (weave ks vs) = vs := by
  induction ks generalizing vs with
  | nil =>
    obtain ⟨v, rfl⟩ := List.length_eq_one_iff.mp h
    rfl
  | cons k ks ih =>
    cases vs with
    | nil => exact absurd h.symm (Nat.succ_ne_zero _)
    | cons v vs => simp only [weave, nodes_cons_node, nodes_cons_sep, ih (Nat.succ.inj h)]

theorem seps_weave (h : vs.length = ks.length + 1) : seps (weave ks vs) = ks := by
  induction ks generalizing vs with
  | nil =>
    obtain ⟨v, rfl⟩ := List.length_eq_one_iff.mp h
    rfl
  | cons k ks ih =>
    cases vs with
    | nil => exact absurd h.symm (Nat.succ_ne_zero _)
    | cons v vs => simp only [weave, seps_cons_node, seps_cons_sep, ih (Nat.succ.inj h)]

theorem nodes_lefts (h : ks.length = vs.length) : nodes (lefts ks vs) = vs := by
  induction ks generalizing vs with
  | nil => exact (List.eq_nil_of_length_eq_zero h.symm).symm
  | cons k ks ih =>
    cases vs with
    | nil => exact absurd h (Nat.succ_ne_zero _)
    | cons v vs => simp only [lefts, nodes_cons_node, nodes_cons_sep, ih (Nat.succ.inj h)]

theorem seps_lefts (h : ks.length = vs.length) : seps (lefts ks vs) = ks := by
  induction ks generalizing vs with
  | nil =>
    obtain rfl := List.eq_nil_of_length_eq_zero h.symm
    rfl
  | cons k ks ih =>
    cases vs with
    | nil => exact absurd h (Nat.succ_ne_zero _)
    | cons v vs => simp only [lefts, seps_cons_node, seps_cons_sep, ih (Nat.succ.inj h)]

theorem nodes_rights (h : ks.length = vs.length) : nodes (rights ks vs) = vs := by
  induction ks generalizing vs with
  | nil => exact (List.eq_nil_of_length_eq_zero h.symm).symm
  | cons k ks ih =>
    cases vs with
    | nil => exact absurd h (Nat.succ_ne_zero _)
    | cons v vs => simp only [rights, nodes_cons_node, nodes_cons_sep, ih (Nat.succ.inj h)]

theorem seps_rights (h : ks.length = vs.length) : seps (rights ks vs) = ks := by
  induction ks generalizing vs with
  | nil =>
    obtain rfl := List.eq_nil_of_length_eq_zero h.symm
    rfl
  | cons k ks ih =>
    cases vs with
    | nil => exact absurd h (Nat.succ_ne_zero _)
    | cons v vs => simp only [rights, seps_cons_node, seps_cons_sep, ih (Nat.succ.inj h)]

end Weave

section Expand

variable {e : ι → List (Item ι κ)} {w w' : List (Item ι κ)}

/-- The row below: every node replaced by its own row. -/
def expand (e : ι → List (Item ι κ)) (w : List (Item ι κ)) : List (Item ι κ) :=
  w.flatMap fun
    | .node o => e o
    | .sep k => [.sep k]

@[simp] theorem expand_nil : expand e [] = [] := rfl

@[simp] theorem expand_cons_node (o : ι) : expand e (.node o :: w) = e o ++ expand e w := rfl

@[simp] theorem expand_cons_sep (k : κ) : expand e (.sep k :: w) = .sep k :: expand e w := rfl

@[simp] theorem expand_append : expand e (w ++ w') = expand e w ++ expand e w' :=
  List.flatMap_append

theorem expand_congr {e' : ι → List (Item ι κ)} (h : ∀ o ∈ nodes w, e' o = e o) :
    expand e' w = expand e w := by
  induction w with
  | nil => rfl
  | cons x w ih =>
    cases x with
    | node o =>
      rw [expand_cons_node, expand_cons_node, h o List.mem_cons_self,
        ih fun o ho ↦ h o (List.mem_cons_of_mem _ ho)]
    | sep k => rw [expand_cons_sep, expand_cons_sep, ih h]

theorem nodes_expand : nodes (expand e w) = (nodes w).flatMap fun o ↦ nodes (e o) := by
  induction w with
  | nil => rfl
  | cons x w ih =>
    cases x with
    | node o => simp [ih]
    | sep k => simp [ih]

/-- The separators of a row stay separators of the row below. -/
theorem seps_sublist_expand : (seps w).Sublist (seps (expand e w)) := by
  induction w with
  | nil => exact .slnil
  | cons x w ih =>
    cases x with
    | node o =>
      rw [seps_cons_node, expand_cons_node, seps_append]
      exact ih.trans (List.sublist_append_right _ _)
    | sep k =>
      rw [seps_cons_sep, expand_cons_sep, seps_cons_sep]
      exact ih.cons_cons k

theorem exists_focus {o : ι} (h : o ∈ nodes w) : ∃ a c, w = a ++ .node o :: c :=
  List.append_of_mem (mem_nodes.mp h)

end Expand

end MqssdModel.Data.Rows
