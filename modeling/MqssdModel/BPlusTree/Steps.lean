import MqssdModel.BPlusTree.Routines

namespace MqssdModel.BPlusTree.Steps

open Data.Arrays Data.TotalRun Machine Caching Routines

/-- A leaf with `k` entries. -/
structure Leaf (n : Node) (k : ℕ) : Prop where
  type : n.type = .leaf
  children : n.children = k

/-- A non-leaf with `k` keys. -/
structure Inner (n : Node) (k : ℕ) : Prop where
  type : n.type = .nonLeaf
  children : n.children = k + 1

theorem Leaf.block_eq {n : Node} {k : ℕ} (h : Leaf n k) : block n =
    ⟨n.self, n.parent, n.prev, n.next, .leaf, k, front n.key k, front n.data k⟩ := by
  simp [block, keyCount, isLeaf, h.type, h.children]

theorem Inner.block_eq {n : Node} {k : ℕ} (h : Inner n k) : block n =
    ⟨n.self, n.parent, n.prev, n.next, .nonLeaf, (k + 1 : ℕ), front n.key k,
      front n.sub (k + 1)⟩ := by
  have hcount : ((k : ℤ) + 1).toNat = k + 1 := by omega
  simp [block, keyCount, isLeaf, h.type, h.children, hcount]

variable {cf : Config} {t : Tree} {st : Store} {live : List (Ptr × Node)} {c d : Ptr}
  {α : Type} {Q : α → Tree → Prop} {s p l r s' p' l' r' x x' y i j k v : ℤ}
  {a b u a' b' u' : ℤ → ℤ} {f : Node → Node}

namespace Leaf

variable (h : Rep t st ((c, ⟨s, p, l, r, .leaf, x, a, b, u⟩) :: live))

include h

theorem moveKeys
    (hd : (d, ⟨s', p', l', r', .leaf, x', a', b', u'⟩) ∈
      (c, (⟨s, p, l, r, .leaf, x, a, b, u⟩ : Node)) :: live)
    (hb : 0 ≤ k ∧ 0 ≤ i ∧ i + k ≤ cf.maxEntries ∧ 0 ≤ j ∧ j + k ≤ cf.maxEntries) :
    Runs (memmove cf keyField c i d j k) t fun _ t' ↦
      Rep t' st ((c, ⟨s, p, l, r, .leaf, x, blit a i a' j k, b, u⟩) :: live) :=
  h.memmove hd hb

theorem moveData
    (hd : (d, ⟨s', p', l', r', .leaf, x', a', b', u'⟩) ∈
      (c, (⟨s, p, l, r, .leaf, x, a, b, u⟩ : Node)) :: live)
    (hb : 0 ≤ k ∧ 0 ≤ i ∧ i + k ≤ cf.maxEntries ∧ 0 ≤ j ∧ j + k ≤ cf.maxEntries) :
    Runs (memmove cf dataField c i d j k) t fun _ t' ↦
      Rep t' st ((c, ⟨s, p, l, r, .leaf, x, a, blit b i b' j k, u⟩) :: live) :=
  h.memmove hd hb

theorem storeKey (hi : 0 ≤ i ∧ i < cf.maxEntries) : Runs (store cf keyField c i v) t fun _ t' ↦
      Rep t' st ((c, ⟨s, p, l, r, .leaf, x, Function.update a i v, b, u⟩) :: live) :=
  h.store hi

theorem storeData (hi : 0 ≤ i ∧ i < cf.maxEntries) : Runs (store cf dataField c i v) t fun _ t' ↦
      Rep t' st ((c, ⟨s, p, l, r, .leaf, x, a, Function.update b i v, u⟩) :: live) :=
  h.store hi

theorem setChildren
    (hf : f ⟨s, p, l, r, .leaf, x, a, b, u⟩ = ⟨s, p, l, r, .leaf, y, a, b, u⟩) :
    Runs (modifyNode c f) t fun _ t' ↦
      Rep t' st ((c, ⟨s, p, l, r, .leaf, y, a, b, u⟩) :: live) :=
  hf ▸ h.modifyNode f

end Leaf

namespace Inner

variable (h : Rep t st ((c, ⟨s, p, l, r, .nonLeaf, x, a, b, u⟩) :: live))

include h

theorem moveKeys
    (hd : (d, ⟨s', p', l', r', .nonLeaf, x', a', b', u'⟩) ∈
      (c, (⟨s, p, l, r, .nonLeaf, x, a, b, u⟩ : Node)) :: live)
    (hb : 0 ≤ k ∧ 0 ≤ i ∧ i + k ≤ cf.maxOrder - 1 ∧ 0 ≤ j ∧ j + k ≤ cf.maxOrder - 1) :
    Runs (memmove cf keyField c i d j k) t fun _ t' ↦
      Rep t' st ((c, ⟨s, p, l, r, .nonLeaf, x, blit a i a' j k, b, u⟩) :: live) :=
  h.memmove hd hb

theorem moveSubs
    (hd : (d, ⟨s', p', l', r', .nonLeaf, x', a', b', u'⟩) ∈
      (c, (⟨s, p, l, r, .nonLeaf, x, a, b, u⟩ : Node)) :: live)
    (hb : 0 ≤ k ∧ 0 ≤ i ∧ i + k ≤ cf.maxOrder ∧ 0 ≤ j ∧ j + k ≤ cf.maxOrder) :
    Runs (memmove cf subField c i d j k) t fun _ t' ↦
      Rep t' st ((c, ⟨s, p, l, r, .nonLeaf, x, a, b, blit u i u' j k⟩) :: live) :=
  h.memmove hd hb

theorem storeKey (hi : 0 ≤ i ∧ i < cf.maxOrder - 1) :
    Runs (store cf keyField c i v) t fun _ t' ↦
      Rep t' st ((c, ⟨s, p, l, r, .nonLeaf, x, Function.update a i v, b, u⟩) :: live) :=
  h.store hi

theorem storeSub (hi : 0 ≤ i ∧ i < cf.maxOrder) : Runs (store cf subField c i v) t fun _ t' ↦
      Rep t' st ((c, ⟨s, p, l, r, .nonLeaf, x, a, b, Function.update u i v⟩) :: live) :=
  h.store hi

theorem setChildren
    (hf : f ⟨s, p, l, r, .nonLeaf, x, a, b, u⟩ = ⟨s, p, l, r, .nonLeaf, y, a, b, u⟩) :
    Runs (modifyNode c f) t fun _ t' ↦
      Rep t' st ((c, ⟨s, p, l, r, .nonLeaf, y, a, b, u⟩) :: live) :=
  hf ▸ h.modifyNode f

omit h in
theorem updateSub {m : Node}
    (h : Rep t st ((c, ⟨s, p, l, r, .nonLeaf, x, a, b, u⟩) :: (d, m) :: live))
    (hs : m.self ≠ invalidOffset) (hi : 0 ≤ i ∧ i < cf.maxOrder) :
    Runs (subNodeUpdate cf c i d) t fun _ t' ↦ Rep t' (st.write { block m with parent := s })
      ((c, ⟨s, p, l, r, .nonLeaf, x, a, b, Function.update u i m.self⟩) :: live) :=
  subNodeUpdate_run h hs hi

end Inner

section Loads

variable (h : Rep t st live) {g : ℤ → M α}

include h

theorem Leaf.loadKey (hm : (c, ⟨s, p, l, r, .leaf, x, a, b, u⟩) ∈ live)
    (hi : 0 ≤ i ∧ i < cf.maxEntries) (hg : Runs (g (a i)) t Q) :
    Runs (load cf keyField c i >>= g) t Q :=
  h.load_bind hm hi hg

theorem Leaf.loadData (hm : (c, ⟨s, p, l, r, .leaf, x, a, b, u⟩) ∈ live)
    (hi : 0 ≤ i ∧ i < cf.maxEntries) (hg : Runs (g (b i)) t Q) :
    Runs (load cf dataField c i >>= g) t Q :=
  h.load_bind hm hi hg

theorem Inner.loadKey (hm : (c, ⟨s, p, l, r, .nonLeaf, x, a, b, u⟩) ∈ live)
    (hi : 0 ≤ i ∧ i < cf.maxOrder - 1) (hg : Runs (g (a i)) t Q) :
    Runs (load cf keyField c i >>= g) t Q :=
  h.load_bind hm hi hg

theorem Inner.loadSub (hm : (c, ⟨s, p, l, r, .nonLeaf, x, a, b, u⟩) ∈ live)
    (hi : 0 ≤ i ∧ i < cf.maxOrder) (hg : Runs (g (u i)) t Q) :
    Runs (load cf subField c i >>= g) t Q :=
  h.load_bind hm hi hg

end Loads

end MqssdModel.BPlusTree.Steps
