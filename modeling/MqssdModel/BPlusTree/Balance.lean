import MqssdModel.BPlusTree.Reading

namespace MqssdModel.BPlusTree.Balance

open Data.Arrays Data.Rows Data.TotalRun Machine Caching Removal Views Shape Allocation Ordering
  Pending Steps LeafLevel Boot Put History Reading

/-- A key from `lo` on and below `hi`. -/
def Within (lo hi : Option ℤ) (k : ℤ) : Prop := (∀ s ∈ lo, s ≤ k) ∧ ∀ s ∈ hi, k < s

/-- The keys of a node are strictly increasing and within bounds. -/
structure KeysOk (n : Node) (lo hi : Option ℤ) : Prop where
  sorted : (front n.key (keyCount n).toNat).Pairwise (· < ·)
  within : ∀ k ∈ front n.key (keyCount n).toNat, Within lo hi k

/-- The separator before the child `j`, or else the bound of the whole node. -/
def lower (n : Node) (lo : Option ℤ) (j : ℕ) : Option ℤ :=
  if j = 0 then lo else some (n.key (j - 1))

def upper (n : Node) (hi : Option ℤ) (j : ℕ) : Option ℤ :=
  if (j : ℤ) + 1 = n.children then hi else some (n.key j)

/-- The block at `o` is the root of a search tree for the keys within the bounds, with all leaves
`h` steps below. -/
def SearchTree (cf : Config) (t : Tree) : ℕ → Option ℤ → Option ℤ → ℤ → Prop
  | 0, lo, hi, o => ∃ n, t.file o = some n ∧ n.type = .leaf ∧ 1 ≤ n.children ∧
      n.children ≤ cf.maxEntries ∧ KeysOk n lo hi
  | h + 1, lo, hi, o => ∃ n, t.file o = some n ∧ n.type = .nonLeaf ∧ 2 ≤ n.children ∧
      n.children ≤ cf.maxOrder ∧ KeysOk n lo hi ∧
      ∀ j : ℕ, j < n.children → SearchTree cf t h (lower n lo j) (upper n hi j) (n.sub j)

/-- No tree, or one whose leaves all are on the level `tree->level`, and no node of which is
reached twice. -/
def Balanced (cf : Config) (t : Tree) : Prop :=
  t.root = invalidOffset ∧ t.level = 0 ∨
    ∃ h : ℕ, t.level = h + 1 ∧ SearchTree cf t h none none t.root ∧
      (layers t (h + 1)).Nodup ∧ ∀ o, Reachable t o ↔ o ∈ layers t (h + 1)

/-- The separators next to a node, between the parts `a` and `b` of its row. -/
structure Bounds (a b : Row) (lo hi : Option ℤ) : Prop where
  left : a = [] ∧ lo = none ∨ ∃ a' s, a = a' ++ [.sep s] ∧ lo = some s
  right : b = [] ∧ hi = none ∨ ∃ s b', b = .sep s :: b' ∧ hi = some s

variable {cf : Config} {t : Tree} {st : Store} {w a b : Row} {us : List Row} {o d : ℤ}
  {lo hi : Option ℤ} {n : Node} {c : Content} {m : List (ℤ × ℤ)} {ops : List (ℤ × ℤ)} {fuel : ℕ}

section Bounds

theorem bounds_nil : Bounds [] [] none none := ⟨Or.inl ⟨rfl, rfl⟩, Or.inl ⟨rfl, rfl⟩⟩

variable {ks₁ ks₂ vs₁ vs₂ : List ℤ} {e : ℤ → Row}

variable (e ks₁ ks₂ vs₁ vs₂) in
theorem Bounds.below (h : Bounds a b lo hi) (hl : ks₁.length = vs₁.length)
    (hr : ks₂.length = vs₂.length) : Bounds (expand e a ++ lefts ks₁ vs₁)
      (rights ks₂ vs₂ ++ expand e b) (ks₁.getLast?.or lo) (ks₂.head?.or hi) := by
  constructor
  · rcases List.eq_nil_or_concat' ks₁ with rfl | ⟨ks, x, rfl⟩
    · obtain rfl := List.eq_nil_of_length_eq_zero hl.symm
      rcases h.left with ⟨rfl, rfl⟩ | ⟨a', s, rfl, rfl⟩
      · exact Or.inl ⟨rfl, rfl⟩
      · exact Or.inr ⟨expand e a', s, by simp [lefts], rfl⟩
    · rcases List.eq_nil_or_concat' vs₁ with rfl | ⟨vs, v, rfl⟩
      · simp at hl
      · have hlen : ks.length = vs.length := by simpa using hl
        refine Or.inr ⟨expand e a ++ lefts ks vs ++ [.node v], x, ?_, by simp⟩
        rw [lefts_concat hlen]
        simp
  · cases ks₂ with
    | nil =>
      obtain rfl := List.eq_nil_of_length_eq_zero hr.symm
      rcases h.right with ⟨rfl, rfl⟩ | ⟨s, b', rfl, rfl⟩
      · exact Or.inl ⟨rfl, rfl⟩
      · exact Or.inr ⟨s, expand e b', rfl, rfl⟩
    | cons x ks =>
      cases vs₂ with
      | nil => simp at hr
      | cons v vs => exact Or.inr ⟨x, .node v :: rights ks vs ++ expand e b, rfl, by simp⟩

theorem Bounds.within_leaf (h : Bounds a b lo hi) (ho : Ordered st (a ++ .node o :: b)) {k : ℤ}
    (hk : k ∈ keysAt st o) : Within lo hi k := by
  have hm : 2 * k + 1 ∈ (keysAt st o).map fun k ↦ 2 * k + 1 := List.mem_map_of_mem hk
  rw [Ordered, marks_append, marks_cons_node] at ho
  obtain ⟨-, hright, hcross⟩ := List.pairwise_append.mp ho
  constructor
  · intro s hs
    rcases h.left with ⟨-, rfl⟩ | ⟨a', s', rfl, rfl⟩
    · cases hs
    · cases hs
      have := hcross (2 * s) (by simp) _ (List.mem_append_left _ hm)
      omega
  · intro s hs
    rcases h.right with ⟨-, rfl⟩ | ⟨s', b', rfl, rfl⟩
    · cases hs
    · cases hs
      have := (List.pairwise_append.mp hright).2.2 _ hm (2 * s) (by simp)
      omega

theorem Bounds.within_inner (h : Bounds a b lo hi)
    (hs : (seps (expand e (a ++ .node o :: b))).Pairwise (· < ·)) {k : ℤ}
    (hk : k ∈ seps (e o)) : Within lo hi k := by
  rw [expand_append, expand_cons_node, seps_append, seps_append] at hs
  obtain ⟨-, hright, hcross⟩ := List.pairwise_append.mp hs
  constructor
  · intro s hs
    rcases h.left with ⟨-, rfl⟩ | ⟨a', s', rfl, rfl⟩
    · cases hs
    · cases hs
      exact (hcross s (by simp) k (List.mem_append_left _ hk)).le
  · intro s hs
    rcases h.right with ⟨-, rfl⟩ | ⟨s', b', rfl, rfl⟩
    · cases hs
    · cases hs
      exact (List.pairwise_append.mp hright).2.2 k hk s (by simp)

end Bounds

section Nodes

theorem getLast?_take_front {f : ℤ → ℤ} {p j : ℕ} (hj : j ≤ p) :
    ((front f p).take j).getLast?.or lo = if j = 0 then lo else some (f (j - 1)) := by
  rw [← front_take hj]
  cases j with
  | zero => rfl
  | succ j => simp [front, List.range_succ]

theorem head?_drop_front {f : ℤ → ℤ} {p j : ℕ} (hj : j ≤ p) :
    ((front f p).drop j).head?.or hi = if j = p then hi else some (f j) := by
  rw [front_drop]
  by_cases h : j = p
  · subst h
    simp [front]
  · rw [head?_front (by omega), if_neg h]
    simp

end Nodes

section Search

variable (hrep : Rep t st [])

include hrep

theorem searchTree_leaf (hl : Leaves cf st w) (ho : Ordered st w) {a b : Row}
    (hw : w = a ++ .node o :: b) (hb : Bounds a b lo hi) : SearchTree cf t 0 lo hi o := by
  subst hw
  obtain ⟨c, hc, hok⟩ := hl.leaf o mem_nodes_middle
  have hkeys := keysAt_eq hc
  obtain ⟨n, hn, rfl⟩ := exists_node hrep hc
  have hleaf : Leaf n (block n).vals.length := Leaf.of_block hok.kind hok.count
  have hone : 1 ≤ (block n).vals.length := hok.one
  have hcap : ((block n).vals.length : ℤ) ≤ cf.maxEntries := hok.cap
  refine ⟨n, hn, hleaf.type, by rw [hleaf.children]; omega, by rw [hleaf.children]; omega, ?_⟩
  have hsorted := ho.keys mem_nodes_middle
  rw [hkeys] at hsorted
  exact ⟨hsorted, fun k hk ↦ hb.within_leaf ho (hkeys ▸ hk)⟩

/-- One level up: the nodes of the row `w` are those below the row `u`. -/
theorem searchTree_inner {u : Row} {h : ℕ} (hin : ∀ o ∈ nodes u, InnerAt cf st u o)
    (hs : (seps (expand (row st) u)).Pairwise (· < ·))
    (hbase : ∀ {a b o lo hi}, expand (row st) u = a ++ .node o :: b → Bounds a b lo hi →
      SearchTree cf t h lo hi o)
    (hu : u = a ++ .node o :: b) (hb : Bounds a b lo hi) : SearchTree cf t (h + 1) lo hi o := by
  subst hu
  obtain ⟨c, hc, hok, -⟩ := hin o mem_nodes_middle
  have hrow := row_eq hc
  obtain ⟨n, hn, rfl⟩ := exists_node hrep hc
  have hinner := inner_of_ok hok
  have hlen : (block n).vals.length = (block n).keys.length + 1 := hok.keys
  have htwo : 2 ≤ (block n).vals.length := hok.two
  have hcap : ((block n).vals.length : ℤ) ≤ cf.maxOrder := hok.cap
  have hseps : seps (row st o) = (block n).keys := by
    rw [hrow]
    exact seps_weave hlen
  obtain ⟨p, hp⟩ : ∃ p, p = (block n).keys.length := ⟨_, rfl⟩
  rw [← hp] at hinner hlen
  have hkeys : (block n).keys = front n.key p := by rw [hinner.block_eq]
  have hvals : (block n).vals = front n.sub (p + 1) := by rw [hinner.block_eq]
  refine ⟨n, hn, hinner.type, by rw [hinner.children]; omega, by rw [hinner.children]; omega,
    ⟨?_, fun k hk ↦ hb.within_inner hs (hseps ▸ hk)⟩, fun j hj ↦ ?_⟩
  · have hsub := hs
    rw [expand_append, expand_cons_node, seps_append, seps_append, hseps] at hsub
    exact (List.pairwise_append.mp (List.pairwise_append.mp hsub).2.1).1
  · rw [hinner.children] at hj
    have hj : j ≤ p := by omega
    -- the row below around the child `j`
    have hsplit : expand (row st) (a ++ .node o :: b) =
        (expand (row st) a ++ lefts ((front n.key p).take j) ((front n.sub (p + 1)).take j)) ++
          .node (n.sub j) :: (rights ((front n.key p).drop j) ((front n.sub (p + 1)).drop (j + 1)) ++
            expand (row st) b) := by
      have hv : front n.sub (p + 1) = (front n.sub (p + 1)).take j ++
          n.sub j :: (front n.sub (p + 1)).drop (j + 1) := by
        have hlt : j < (front n.sub (p + 1)).length := by simp; omega
        have hget := getElem_front n.sub (p + 1) j hlt
        rw [← hget, List.getElem_cons_drop, List.take_append_drop]
      have hweave : row st o = lefts ((front n.key p).take j) ((front n.sub (p + 1)).take j) ++
          .node (n.sub j) :: rights ((front n.key p).drop j)
            ((front n.sub (p + 1)).drop (j + 1)) := by
        rw [← weave_focus (by simp; omega) (by simp), List.take_append_drop, ← hv, hrow, ← hkeys,
          ← hvals]
        rfl
      rw [expand_append, expand_cons_node, hweave]
      simp
    have hbelow := Bounds.below ((front n.key p).take j) ((front n.key p).drop j)
      ((front n.sub (p + 1)).take j) ((front n.sub (p + 1)).drop (j + 1)) (row st) hb
      (by simp; omega) (by simp)
    have hchild := hbase hsplit hbelow
    rw [getLast?_take_front hj, head?_drop_front hj] at hchild
    have hup : upper n hi j = if j = p then hi else some (n.key j) := by
      rw [upper, hinner.children]
      by_cases he : j = p
      · rw [if_pos he, if_pos (by omega)]
      · rw [if_neg he, if_neg (by omega)]
    rw [hup]
    exact hchild

theorem searchTree_upper {h : ℕ} (hup : Upper cf st w us) (hs : (seps w).Pairwise (· < ·))
    (hbase : ∀ {a b o lo hi}, w = a ++ .node o :: b → Bounds a b lo hi →
      SearchTree cf t h lo hi o) : SearchTree cf t (h + us.length) none none st.root := by
  induction us generalizing w h with
  | nil =>
    obtain ⟨rfl, -⟩ := hup
    exact hbase (List.nil_append _).symm bounds_nil
  | cons u us ih =>
    obtain ⟨rfl, hin, -, hup⟩ := hup
    rw [List.length_cons, Nat.add_comm us.length, ← Nat.add_assoc]
    exact ih hup (hs.sublist seps_sublist_expand)
      fun hu hb ↦ searchTree_inner hrep hin hs hbase hu hb

end Search

theorem balanced_of_stands (hcf : Sized cf) (h : Stands cf t m 1) : Balanced cf t := by
  obtain ⟨st, hrep, ⟨-, hroot, hlevel, -, -⟩ | ⟨w, us, h, -⟩⟩ := h
  · exact Or.inl ⟨hrep.root.trans hroot, hrep.level.trans hlevel⟩
  · have hroot := h.alloc.ne_invalid hcf (root_mem h.upper)
    have hlevel := h.level
    have htree := searchTree_upper hrep h.upper h.ordered.seps
      fun hw hb ↦ searchTree_leaf hrep h.leaves h.ordered hw hb
    rw [Nat.zero_add, ← hrep.root] at htree
    refine Or.inr ⟨us.length, by rw [hrep.level]; omega, htree, ?_, fun o ↦
      reachable_iff hrep hroot h.upper h.leaves⟩
    exact (layers_perm hrep hroot h.upper).nodup_iff.mpr h.alloc.nodup.of_append_left

end MqssdModel.BPlusTree.Balance
