import MqssdModel.BPlusTree.Removal
import MqssdModel.BPlusTree.Steps
import MqssdModel.Data.Moves

namespace MqssdModel.BPlusTree.LeafSpecs

open Data.Arrays Data.Moves Data.TotalRun Machine Caching Routines Insertion Removal Steps

variable {cf : Config} {t : Tree} {st : Store} {live : List (Ptr × Node)} {c d e : Ptr}
  {n m w : Node}

section Insert

theorem leafSimpleInsert_run {p k : ℕ} {key data : ℤ} (h : Rep t st ((c, n) :: live))
    (hn : Leaf n k) (hp : p ≤ k) (hk : k < cf.maxEntries) :
    Runs (leafSimpleInsert cf c key data p) t fun _ t' ↦ ∃ n', Rep t' st ((c, n') :: live) ∧
      block n' = { block n with
        count := k + 1
        keys := splice (block n).keys p [key] 0
        vals := splice (block n).vals p [data] 0 } := by
  obtain ⟨s, q, l, r, _, _, a, b, u⟩ := n
  obtain ⟨rfl, rfl⟩ := hn
  refine h.node_bind mem₁ ?_
  dsimp only
  refine (Leaf.moveKeys h mem₁ (by omega)).seq fun _ t₁ h₁ ↦ ?_
  refine h₁.node_bind mem₁ ?_
  dsimp only
  refine (Leaf.moveData h₁ mem₁ (by omega)).seq fun _ t₂ h₂ ↦ ?_
  refine (Leaf.storeKey h₂ (by omega)).seq fun _ t₃ h₃ ↦ ?_
  refine (Leaf.storeData h₃ (by omega)).seq fun _ t₄ h₄ ↦ ?_
  refine (Leaf.setChildren h₄ rfl).mono fun _ t₅ h₅ ↦ ⟨_, h₅, ?_⟩
  rw [Leaf.block_eq (k := k + 1) ⟨rfl, rfl⟩, Leaf.block_eq (k := k) ⟨rfl, rfl⟩]
  simp only [front_insert hp]
  rfl

theorem leafSplitLeft_run {p k sp : ℕ} {key data : ℤ}
    (h : Rep t st ((d, m) :: (c, n) :: live)) (hlen : live.length ≤ 2)
    (hfresh : Away ((c, n) :: live) st.fresh) (hprev : Beside st ((c, n) :: live) n.prev)
    (hn : Leaf n k) (hm : New .leaf m)
    (hk : k = cf.maxEntries) (hsp : sp = (k + 1) / 2) (hp : p < sp) :
    Runs (leafSplitLeft cf c d key data p) t fun key' t' ↦ ∃ n' m',
      Rep t' (setNext (st.alloc cf) n.prev st.fresh) ((c, n') :: (d, m') :: live) ∧
      block m' = ⟨st.fresh, invalidOffset, n.prev, n.self, .leaf, sp,
        (splice (block n).keys p [key] 0).take sp, (splice (block n).vals p [data] 0).take sp⟩ ∧
      block n' = { block n with
        prev := st.fresh
        count := (k + 1 - sp : ℕ)
        keys := (splice (block n).keys p [key] 0).drop sp
        vals := (splice (block n).vals p [data] 0).drop sp } ∧
      (block n').keys.head? = some key' := by
  obtain ⟨s, q, l, r, _, _, a, b, u⟩ := n
  obtain ⟨rfl, rfl⟩ := hn
  obtain ⟨s', q', l', r', _, x', a', b', u'⟩ := m
  obtain ⟨rfl, rfl, rfl, rfl, rfl, rfl⟩ := hm
  refine h.node_bind mem₂ ?_
  dsimp only at hprev ⊢
  rw [show ((k : ℤ) + 1) / 2 = sp by omega, ← hk]
  refine (leftNodeAdd_run h hlen hfresh hprev).seq fun _ t₁ h₁ ↦ ?_
  dsimp only at h₁
  refine (Leaf.setChildren h₁.swap rfl).seq fun _ t₂ h₂ ↦ ?_
  refine (Leaf.setChildren h₂.swap rfl).seq fun _ t₃ h₃ ↦ ?_
  refine (Leaf.moveKeys h₃.swap mem₂ (by omega)).seq fun _ t₄ h₄ ↦ ?_
  refine (Leaf.moveData h₄ mem₂ (by omega)).seq fun _ t₅ h₅ ↦ ?_
  refine (Leaf.storeKey h₅ (by omega)).seq fun _ t₆ h₆ ↦ ?_
  refine (Leaf.storeData h₆ (by omega)).seq fun _ t₇ h₇ ↦ ?_
  refine (Leaf.moveKeys h₇ mem₂ (by omega)).seq fun _ t₈ h₈ ↦ ?_
  refine (Leaf.moveData h₈ mem₂ (by omega)).seq fun _ t₉ h₉ ↦ ?_
  refine h₉.node_bind mem₂ ?_
  dsimp only
  refine (Leaf.moveKeys h₉.swap mem₁ (by omega)).seq fun _ t₁₀ h₁₀ ↦ ?_
  refine h₁₀.node_bind mem₁ ?_
  dsimp only
  refine (Leaf.moveData h₁₀ mem₁ (by omega)).seq fun _ t₁₁ h₁₁ ↦ ?_
  refine h₁₁.load_run mem₁ (by change _ ∧ _ < cf.maxEntries; omega) ⟨_, _, h₁₁, ?_⟩
  rw [Leaf.block_eq (k := sp) ⟨rfl, rfl⟩, Leaf.block_eq (k := k) ⟨rfl, rfl⟩,
    Leaf.block_eq (k := k + 1 - sp) ⟨rfl, by dsimp only; omega⟩]
  have hle : sp ≤ k + 1 := by omega
  refine ⟨?_, ?_, head?_front (by omega)⟩
  · simp only [front_insert_take hp hle]
  · simp only [← front_insert_drop hp hle]

theorem leafSplitRight_run {p k sp : ℕ} {key data : ℤ}
    (h : Rep t st ((d, m) :: (c, n) :: live)) (hlen : live.length ≤ 2)
    (hfresh : Away ((c, n) :: live) st.fresh) (hnext : Beside st ((c, n) :: live) n.next)
    (hn : Leaf n k) (hm : New .leaf m)
    (hk : k = cf.maxEntries) (hsp : sp = (k + 1) / 2) (hp : sp ≤ p) (hp' : p ≤ k)
    (hk₀ : 0 < k) :
    Runs (leafSplitRight cf c d key data p) t fun key' t' ↦ ∃ n' m',
      Rep t' (setPrev (st.alloc cf) n.next st.fresh) ((c, n') :: (d, m') :: live) ∧
      block n' = { block n with
        next := st.fresh
        count := sp
        keys := (splice (block n).keys p [key] 0).take sp
        vals := (splice (block n).vals p [data] 0).take sp } ∧
      block m' = ⟨st.fresh, invalidOffset, n.self, n.next, .leaf, (k + 1 - sp : ℕ),
        (splice (block n).keys p [key] 0).drop sp, (splice (block n).vals p [data] 0).drop sp⟩ ∧
      (block m').keys.head? = some key' := by
  obtain ⟨s, q, l, r, _, _, a, b, u⟩ := n
  obtain ⟨rfl, rfl⟩ := hn
  obtain ⟨s', q', l', r', _, x', a', b', u'⟩ := m
  obtain ⟨rfl, rfl, rfl, rfl, rfl, rfl⟩ := hm
  refine h.node_bind mem₂ ?_
  dsimp only at hnext ⊢
  rw [show ((k : ℤ) + 1) / 2 = sp by omega, ← hk]
  refine (rightNodeAdd_run h hlen hfresh hnext).seq fun _ t₁ h₁ ↦ ?_
  dsimp only at h₁
  refine (Leaf.setChildren h₁ rfl).seq fun _ t₂ h₂ ↦ ?_
  refine (Leaf.setChildren h₂.swap rfl).seq fun _ t₃ h₃ ↦ ?_
  refine (Leaf.moveKeys h₃ mem₂ (by omega)).seq fun _ t₄ h₄ ↦ ?_
  refine (Leaf.moveData h₄ mem₂ (by omega)).seq fun _ t₅ h₅ ↦ ?_
  refine (Leaf.storeKey h₅ (by omega)).seq fun _ t₆ h₆ ↦ ?_
  refine (Leaf.storeData h₆ (by omega)).seq fun _ t₇ h₇ ↦ ?_
  refine (Leaf.moveKeys h₇ mem₂ (by omega)).seq fun _ t₈ h₈ ↦ ?_
  refine (Leaf.moveData h₈ mem₂ (by omega)).seq fun _ t₉ h₉ ↦ ?_
  refine h₉.load_run mem₁ (by change _ ∧ _ < cf.maxEntries; omega) ⟨_, _, h₉.swap, ?_⟩
  rw [Leaf.block_eq (k := sp) ⟨rfl, rfl⟩, Leaf.block_eq (k := k) ⟨rfl, rfl⟩,
    Leaf.block_eq (k := k + 1 - sp) ⟨rfl, by dsimp only; omega⟩]
  refine ⟨?_, ?_, head?_front (by omega)⟩
  · simp only [← front_take_insert hp hp']
  · simp only [front_drop_insert (show sp + (k + 1 - sp) = k + 1 by omega) rfl rfl hp']

end Insert

section Remove

theorem leafSimpleRemove_run {r k : ℕ} (h : Rep t st ((c, n) :: live)) (hn : Leaf n k)
    (hr : r < k) (hk : k ≤ cf.maxEntries) :
    Runs (leafSimpleRemove cf c r) t fun _ t' ↦ ∃ n', Rep t' st ((c, n') :: live) ∧
      block n' = { block n with
        count := (k - 1 : ℕ)
        keys := splice (block n).keys r [] 1
        vals := splice (block n).vals r [] 1 } := by
  obtain ⟨s, q, l, r, _, _, a, b, u⟩ := n
  obtain ⟨rfl, rfl⟩ := hn
  refine h.node_bind mem₁ ?_
  dsimp only
  refine (Leaf.moveKeys h mem₁ (by omega)).seq fun _ t₁ h₁ ↦ ?_
  refine (Leaf.moveData h₁ mem₁ (by omega)).seq fun _ t₂ h₂ ↦ ?_
  refine (Leaf.setChildren h₂ rfl).mono fun _ t₃ h₃ ↦ ⟨_, h₃, ?_⟩
  rw [Leaf.block_eq (k := k - 1) ⟨rfl, by dsimp only; omega⟩, Leaf.block_eq (k := k) ⟨rfl, rfl⟩]
  have hk₁ : k - 1 + 1 = k := by omega
  simp only [front_remove hr hk₁ rfl rfl rfl]

theorem leafMergeIntoLeft_run {r k k' : ℕ} (h : Rep t st ((c, n) :: (d, m) :: live))
    (hn : Leaf n k) (hm : Leaf m k') (hr : r < k) (hk : k ≤ cf.maxEntries)
    (hk' : k' + k ≤ cf.maxEntries + 1) :
    Runs (leafMergeIntoLeft cf c d r) t fun _ t' ↦ ∃ m', Rep t' st ((c, n) :: (d, m') :: live) ∧
      block m' = { block m with
        count := (k' + (k - 1) : ℕ)
        keys := (block m).keys ++ splice (block n).keys r [] 1
        vals := (block m).vals ++ splice (block n).vals r [] 1 } := by
  obtain ⟨s, q, l, r, _, _, a, b, u⟩ := n
  obtain ⟨rfl, rfl⟩ := hn
  obtain ⟨s', q', l', r', _, _, a', b', u'⟩ := m
  obtain ⟨rfl, rfl⟩ := hm
  refine h.node_bind mem₂ (h.node_bind mem₁ ?_)
  dsimp only
  refine (Leaf.moveKeys h.swap mem₂ (by omega)).seq fun _ t₁ h₁ ↦ ?_
  refine (Leaf.moveData h₁ mem₂ (by omega)).seq fun _ t₂ h₂ ↦ ?_
  refine (Leaf.moveKeys h₂ mem₂ (by omega)).seq fun _ t₃ h₃ ↦ ?_
  refine (Leaf.moveData h₃ mem₂ (by omega)).seq fun _ t₄ h₄ ↦ ?_
  refine (Leaf.setChildren h₄ rfl).mono fun _ t₅ h₅ ↦ ⟨_, h₅.swap, ?_⟩
  rw [Leaf.block_eq (k := k' + (k - 1)) ⟨rfl, by dsimp only; omega⟩,
    Leaf.block_eq (k := k') ⟨rfl, rfl⟩, Leaf.block_eq (k := k) ⟨rfl, rfl⟩]
  have hk₁ : k' + (k - 1) + 1 = k' + k := by omega
  simp only [front_append_remove hr hk₁ rfl rfl rfl rfl rfl]

theorem leafMergeFromRight_run {k k' : ℕ} (h : Rep t st ((c, n) :: (d, m) :: live))
    (hn : Leaf n k) (hm : Leaf m k') (hk : k + k' ≤ cf.maxEntries) :
    Runs (leafMergeFromRight cf c d) t fun _ t' ↦ ∃ n', Rep t' st ((c, n') :: (d, m) :: live) ∧
      block n' = { block n with
        count := (k + k' : ℕ)
        keys := (block n).keys ++ (block m).keys
        vals := (block n).vals ++ (block m).vals } := by
  obtain ⟨s, q, l, r, _, _, a, b, u⟩ := n
  obtain ⟨rfl, rfl⟩ := hn
  obtain ⟨s', q', l', r', _, _, a', b', u'⟩ := m
  obtain ⟨rfl, rfl⟩ := hm
  refine h.node_bind mem₁ (h.node_bind mem₂ ?_)
  dsimp only
  refine (Leaf.moveKeys h mem₂ (by omega)).seq fun _ t₁ h₁ ↦ ?_
  refine (Leaf.moveData h₁ mem₂ (by omega)).seq fun _ t₂ h₂ ↦ ?_
  refine (Leaf.setChildren h₂ rfl).mono fun _ t₃ h₃ ↦ ⟨_, h₃, ?_⟩
  rw [Leaf.block_eq (k := k + k') ⟨rfl, by dsimp only; omega⟩,
    Leaf.block_eq (k := k) ⟨rfl, rfl⟩, Leaf.block_eq (k := k') ⟨rfl, rfl⟩]
  simp only [front_append rfl rfl rfl]

theorem leafShiftFromLeft_run {r k k' i q : ℕ} {ks vs : List ℤ} {x y : ℤ}
    (h : Rep t st ((c, n) :: (d, m) :: (e, w) :: live)) (hn : Leaf n k) (hm : Leaf m (k' + 1))
    (hw : Inner w q) (hr : r < k) (hk : k ≤ cf.maxEntries) (hk' : k' < cf.maxEntries)
    (hks : (block m).keys = ks ++ [x]) (hvs : (block m).vals = vs ++ [y]) (hi : i < q)
    (hq : q < cf.maxOrder) :
    Runs (leafShiftFromLeft cf c d e i r) t fun _ t' ↦ ∃ n' m' w',
      Rep t' st ((c, n') :: (d, m') :: (e, w') :: live) ∧
      block n' = { block n with
        keys := x :: splice (block n).keys r [] 1
        vals := y :: splice (block n).vals r [] 1 } ∧
      block m' = { block m with count := k', keys := ks, vals := vs } ∧
      block w' = { block w with keys := splice (block w).keys i [x] 1 } := by
  rw [hm.block_eq] at hks hvs
  obtain ⟨rfl, rfl⟩ := front_succ_inj hks
  obtain ⟨rfl, rfl⟩ := front_succ_inj hvs
  obtain ⟨s, p, l, r, _, _, a, b, u⟩ := n
  obtain ⟨rfl, rfl⟩ := hn
  obtain ⟨s', p', l', r', _, z, a', b', u'⟩ := m
  obtain ⟨rfl, rfl⟩ := hm
  obtain ⟨sw, pw, lw, nw, _, _, aw, bw, uw⟩ := w
  obtain ⟨rfl, rfl⟩ := hw
  refine (Leaf.moveKeys h mem₁ (by omega)).seq fun _ t₁ h₁ ↦ ?_
  refine (Leaf.moveData h₁ mem₁ (by omega)).seq fun _ t₂ h₂ ↦ ?_
  refine h₂.node_bind mem₂ ?_
  dsimp only
  rw [show ((k' + 1 : ℕ) : ℤ) - 1 = k' by omega]
  refine Leaf.loadKey h₂ mem₂ (by omega) ?_
  refine (Leaf.storeKey h₂ (by omega)).seq fun _ t₃ h₃ ↦ ?_
  refine h₃.node_bind mem₂ ?_
  dsimp only
  rw [show ((k' + 1 : ℕ) : ℤ) - 1 = k' by omega]
  refine Leaf.loadData h₃ mem₂ (by omega) ?_
  refine (Leaf.storeData h₃ (by omega)).seq fun _ t₄ h₄ ↦ ?_
  refine (Leaf.setChildren h₄.swap rfl).seq fun _ t₅ h₅ ↦ ?_
  refine Leaf.loadKey h₅ mem₂ (by omega) ?_
  refine (Inner.storeKey h₅.third (by omega)).mono fun _ t₆ h₆ ↦ ?_
  refine ⟨_, _, _, h₆.third.third.swap, ?_, ?_, ?_⟩
  · rw [Leaf.block_eq (k := k) ⟨rfl, rfl⟩, Leaf.block_eq (k := k) ⟨rfl, rfl⟩]
    simp only [front_cons_remove hr rfl]
  · rw [Leaf.block_eq (k := k') ⟨rfl, by dsimp only; omega⟩,
      Leaf.block_eq (k := k' + 1) ⟨rfl, rfl⟩]
  · rw [Inner.block_eq (k := q) ⟨rfl, rfl⟩, Inner.block_eq (k := q) ⟨rfl, rfl⟩]
    simp only [Function.update_self, front_set hi]

theorem leafShiftFromRight_run {k k' i q : ℕ} {ks vs : List ℤ} {x x' y : ℤ}
    (h : Rep t st ((c, n) :: (d, m) :: (e, w) :: live)) (hn : Leaf n k) (hm : Leaf m (k' + 1))
    (hw : Inner w q) (hk : k < cf.maxEntries) (hk' : k' < cf.maxEntries)
    (hks : (block m).keys = x :: x' :: ks) (hvs : (block m).vals = y :: vs) (hi : i < q)
    (hq : q < cf.maxOrder) :
    Runs (leafShiftFromRight cf c d e i) t fun _ t' ↦ ∃ n' m' w',
      Rep t' st ((c, n') :: (d, m') :: (e, w') :: live) ∧
      block n' = { block n with
        count := (k + 1 : ℕ)
        keys := (block n).keys ++ [x]
        vals := (block n).vals ++ [y] } ∧
      block m' = { block m with count := k', keys := x' :: ks, vals := vs } ∧
      block w' = { block w with keys := splice (block w).keys i [x'] 1 } := by
  rw [hm.block_eq] at hks hvs
  obtain ⟨s, p, l, r, _, _, a, b, u⟩ := n
  obtain ⟨rfl, rfl⟩ := hn
  obtain ⟨s', p', l', r', _, z, a', b', u'⟩ := m
  obtain ⟨rfl, rfl⟩ := hm
  obtain ⟨sw, pw, lw, nw, _, _, aw, bw, uw⟩ := w
  obtain ⟨rfl, rfl⟩ := hw
  refine h.node_bind mem₁ (Leaf.loadKey h mem₂ (by omega) ?_)
  dsimp only
  refine (Leaf.storeKey h (by omega)).seq fun _ t₁ h₁ ↦ ?_
  refine h₁.node_bind mem₁ (Leaf.loadData h₁ mem₂ (by omega) ?_)
  dsimp only
  refine (Leaf.storeData h₁ (by omega)).seq fun _ t₂ h₂ ↦ ?_
  refine (Leaf.setChildren h₂ rfl).seq fun _ t₃ h₃ ↦ ?_
  refine h₃.node_bind mem₂ ?_
  dsimp only
  rw [show ((k' + 1 : ℕ) : ℤ) - 1 = k' by omega]
  refine (Leaf.moveKeys h₃.swap mem₁ (by omega)).seq fun _ t₄ h₄ ↦ ?_
  refine (Leaf.moveData h₄ mem₁ (by omega)).seq fun _ t₅ h₅ ↦ ?_
  refine (Leaf.setChildren h₅ rfl).seq fun _ t₆ h₆ ↦ ?_
  refine Leaf.loadKey h₆ mem₁ (by omega) ?_
  refine (Inner.storeKey h₆.third (by omega)).mono fun _ t₇ h₇ ↦ ?_
  obtain ⟨rfl, hks'⟩ := front_cons_inj hks
  obtain ⟨rfl, hvs'⟩ := front_cons_inj hvs
  refine ⟨_, _, _, h₇.third.third.swap, ?_, ?_, ?_⟩
  · rw [Leaf.block_eq (k := k + 1) ⟨rfl, rfl⟩, Leaf.block_eq (k := k) ⟨rfl, rfl⟩]
    simp only [front_concat]
  · rw [Leaf.block_eq (k := k') ⟨rfl, by dsimp only; omega⟩,
      Leaf.block_eq (k := k' + 1) ⟨rfl, rfl⟩]
    simp only [hks', hvs']
  · rw [Inner.block_eq (k := q) ⟨rfl, rfl⟩, Inner.block_eq (k := q) ⟨rfl, rfl⟩]
    simp only [front_set hi, front_head hks']

end Remove

end MqssdModel.BPlusTree.LeafSpecs
