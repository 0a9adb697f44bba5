import MqssdModel.BPlusTree.Removal
import MqssdModel.BPlusTree.Steps
import MqssdModel.Data.Moves

namespace MqssdModel.BPlusTree.InnerSpecs

open Data.Arrays Data.Moves Data.TotalRun Machine Caching Routines Insertion Removal Steps

/-- The children `moved` get the parent `p`, and so do `l` and `r`, which are written out. -/
def adopt (st : Store) (p : ℤ) (moved : List ℤ) (l r : Node) : Store :=
  ((reparent st p moved).write { block l with parent := p }).write { block r with parent := p }

section Flushes

variable {st : Store} {sub : ℤ → ℤ} {skip : ℤ → Bool} {p : ℤ} {b : Block} {moved : List ℤ}

theorem alter_write {q : ℤ} (h : q ≠ b.self) (f : Block → Block) :
    alter (st.write b) q f = (alter st q f).write b := by
  simp only [alter, Store.write, Function.update_of_ne h]
  rw [Function.update_comm h]

theorem reparent_write (h : b.self ∉ moved) :
    reparent (st.write b) p moved = (reparent st p moved).write b := by
  induction moved generalizing st with
  | nil => rfl
  | cons q qs ih =>
    rw [List.mem_cons, not_or] at h
    rw [reparent, alter_write (Ne.symm h.1), ih h.2]
    rfl

theorem adopt_eq {l r : Node} (hl : l.self ∉ moved) (hr : r.self ∉ moved) :
    reparent ((st.write { block l with parent := p }).write { block r with parent := p }) p moved =
      adopt st p moved l r := by
  rw [reparent_write hr, reparent_write hl]
  rfl

theorem flushed_append (k m : ℕ) (i : ℤ) : flushed sub skip (k + m) i =
    flushed sub skip k i ++ flushed sub skip m (i + k) := by
  induction k generalizing i with
  | zero => simp [flushed]
  | succ k ih =>
    rw [Nat.succ_add, flushed, flushed, ih]
    have hi : i + 1 + (k : ℤ) = i + (k + 1 : ℕ) := by omega
    rw [hi]
    split <;> rfl

theorem flushed_eq_front {k : ℕ} {i : ℤ} (h : ∀ j, i ≤ j → j < i + k → skip j = false) :
    flushed sub skip k i = front (fun j ↦ sub (i + j)) k := by
  induction k generalizing i with
  | zero => rfl
  | succ k ih =>
    rw [flushed, h i le_rfl (by omega), if_neg Bool.false_ne_true,
      ih fun j hj hj' ↦ h j (by omega) (by omega)]
    simp only [front, List.range_succ_eq_map, List.map_cons, List.map_map, Nat.cast_zero, add_zero,
      List.cons.injEq, true_and]
    refine List.map_congr_left fun j _ ↦ ?_
    simp only [Function.comp_apply, Nat.succ_eq_add_one]
    congr 1
    omega

theorem flushed_eq_drop {m k : ℕ} {i : ℤ} (hi : i = m) :
    flushed sub (fun _ ↦ false) k i = (front sub (m + k)).drop m := by
  rw [flushed_eq_front fun _ _ _ ↦ rfl, front_drop, Nat.add_sub_cancel_left, hi]

theorem flushed_pair {k p : ℕ} (hp : p + 1 < k) :
    flushed sub (fun i ↦ i = p || i = p + 1) k 0 =
      front sub p ++ front (fun j ↦ sub (p + 2 + j)) (k - (p + 2)) := by
  obtain ⟨m, rfl⟩ : ∃ m, k = p + (2 + m) := ⟨k - (p + 2), by omega⟩
  have hmid : flushed sub (fun i ↦ i = p || i = p + 1) 2 p = [] := by simp [flushed]
  rw [flushed_append, flushed_append, zero_add, hmid, List.nil_append,
    flushed_eq_front fun j _ _ ↦ ?_, flushed_eq_front fun j _ _ ↦ ?_]
  · simp only [zero_add, show p + (2 + m) - (p + 2) = m by omega, Nat.cast_ofNat]
  · rw [Bool.or_eq_false_iff, decide_eq_false_iff_not, decide_eq_false_iff_not]
    omega
  · rw [Bool.or_eq_false_iff, decide_eq_false_iff_not, decide_eq_false_iff_not]
    omega

end Flushes

variable {cf : Config} {t : Tree} {st : Store} {live : List (Ptr × Node)} {c d e lc rc : Ptr}
  {n m w l r : Node}

section Insert

theorem nonLeafSimpleInsert_run {p k : ℕ} {key : ℤ}
    (h : Rep t st ((c, n) :: (lc, l) :: (rc, r) :: live)) (hn : Inner n k) (hp : p ≤ k)
    (hk : k + 1 < cf.maxOrder) (hl : l.self ≠ invalidOffset) (hr : r.self ≠ invalidOffset) :
    Runs (nonLeafSimpleInsert cf c lc rc key p) t fun _ t' ↦ ∃ n',
      Rep t' (adopt st n.self [] l r) ((c, n') :: live) ∧
      block n' = { block n with
        count := (k + 2 : ℕ)
        keys := splice (block n).keys p [key] 0
        vals := splice (block n).vals p [l.self, r.self] 1 } := by
  obtain ⟨s, q, lw, rw, _, _, a, b, u⟩ := n
  obtain ⟨rfl, rfl⟩ := hn
  refine h.node_bind mem₁ ?_
  dsimp only
  rw [show (k : ℤ) + 1 - 1 - p = k - p by omega]
  refine (Inner.moveKeys h mem₁ (by omega)).seq fun _ t₁ h₁ ↦ ?_
  refine h₁.node_bind mem₁ ?_
  dsimp only
  rw [show (k : ℤ) + 1 - 1 - p = k - p by omega]
  refine (Inner.moveSubs h₁ mem₁ (by omega)).seq fun _ t₂ h₂ ↦ ?_
  refine (Inner.storeKey h₂ (by omega)).seq fun _ t₃ h₃ ↦ ?_
  refine (Inner.updateSub h₃ hl (by omega)).seq fun _ t₄ h₄ ↦ ?_
  refine (Inner.updateSub h₄ hr (by omega)).seq fun _ t₅ h₅ ↦ ?_
  refine (Inner.setChildren h₅ rfl).mono fun _ t₆ h₆ ↦ ⟨_, h₆, ?_⟩
  rw [Inner.block_eq (k := k + 1) ⟨rfl, rfl⟩, Inner.block_eq (k := k) ⟨rfl, rfl⟩]
  simp only [front_insert hp, front_replace hp]

theorem nonLeafSplitLeft_run {p k sp : ℕ} {key : ℤ}
    (h : Rep t st [(d, m), (c, n), (lc, l), (rc, r)]) (hn : Inner n k) (hm : New .nonLeaf m)
    (hfresh : Away [(c, n), (lc, l), (rc, r)] st.fresh)
    (hprev : Beside st [(c, n), (lc, l), (rc, r)] n.prev)
    (hvals : ∀ v ∈ splice (block n).vals p [] 1, Fetchable st [(c, n), (lc, l), (rc, r)] v)
    (hk : k + 1 = cf.maxOrder) (hk₃ : 3 ≤ k) (hsp : sp = (k + 1) / 2) (hp : p < sp)
    (hl : l.self ≠ invalidOffset) (hr : r.self ≠ invalidOffset) :
    Runs (nonLeafSplitLeft cf c d lc rc key p sp) t fun key' t' ↦ ∃ n' m' xs ys,
      Rep t' (adopt (setNext (st.alloc cf) n.prev st.fresh) st.fresh (xs ++ ys) l r)
        [(c, n'), (d, m')] ∧
      (block m').vals = xs ++ l.self :: r.self :: ys ∧
      block m' = ⟨st.fresh, invalidOffset, n.prev, n.self, .nonLeaf, (sp + 1 : ℕ),
        (splice (block n).keys p [key] 0).take sp,
        (splice (block n).vals p [l.self, r.self] 1).take (sp + 1)⟩ ∧
      block n' = { block n with
        prev := st.fresh
        count := (k + 1 - sp : ℕ)
        keys := (splice (block n).keys p [key] 0).drop (sp + 1)
        vals := (splice (block n).vals p [l.self, r.self] 1).drop (sp + 1) } ∧
      (splice (block n).keys p [key] 0)[sp]? = some key' := by
  rw [hn.block_eq] at hvals ⊢
  obtain ⟨s, q, pn, nn, _, _, a, b, u⟩ := n
  obtain ⟨rfl, rfl⟩ := hn
  obtain ⟨s', q', l', r', _, x', a', b', u'⟩ := m
  obtain ⟨rfl, rfl, rfl, rfl, rfl, rfl⟩ := hm
  dsimp only at hprev hvals ⊢
  refine (leftNodeAdd_run h le_rfl hfresh hprev).seq fun _ t₁ h₁ ↦ ?_
  dsimp only at h₁
  rw [← hk]
  refine (Inner.setChildren h₁.swap rfl).seq fun _ t₂ h₂ ↦ ?_
  refine (Inner.setChildren h₂.swap rfl).seq fun _ t₃ h₃ ↦ ?_
  refine (Inner.moveKeys h₃.swap mem₂ (by omega)).seq fun _ t₄ h₄ ↦ ?_
  refine (Inner.moveSubs h₄ mem₂ (by omega)).seq fun _ t₅ h₅ ↦ ?_
  refine (Inner.moveKeys h₅ mem₂ (by omega)).seq fun _ t₆ h₆ ↦ ?_
  refine (Inner.moveSubs h₆ mem₂ (by omega)).seq fun _ t₇ h₇ ↦ ?_
  refine h₇.node_bind mem₁ ?_
  dsimp only
  rw [show ((sp : ℤ) + 1).toNat = sp + 1 by omega]
  have hmoved : ∀ v ∈ flushed (blit (blit u' 0 u 0 p) (p + 1) u p (sp - p))
      (fun i ↦ i = p || i = p + 1) (sp + 1) 0, v ∈ splice (front u (k + 1)) p [] 1 := by
    rw [flushed_pair (by omega)]
    intro v hv
    rcases List.mem_append.mp hv with hv | hv
    · obtain ⟨i, hi, rfl⟩ := mem_front.mp hv
      simp only [blit]
      rw [if_neg (by omega), if_pos (by omega)]
      exact mem_splice_nil (by omega) (by omega) (by omega) (by omega)
    · obtain ⟨i, hi, rfl⟩ := mem_front.mp hv
      simp only [blit]
      rw [if_pos (by omega)]
      exact mem_splice_nil (by omega) (by omega) (by omega) (by omega)
  refine (subNodesFlush_run h₇ mem₁ (by simp) le_rfl (by omega) (fun v hv ↦ ?_)
    fun v hv ↦ ?_).seq fun _ t₈ h₈ ↦ ?_
  · exact Present.setNext (Present.alloc (hvals v (hmoved v hv)).present)
  · have ha := away_cons.mp (hvals v (hmoved v hv)).away
    exact away_cons.mpr ⟨(hvals v (hmoved v hv)).fresh.symm, away_cons.mpr ha⟩
  dsimp only at h₈
  rw [flushed_pair (by omega)] at h₈
  refine (Inner.storeKey h₈ (by omega)).seq fun _ t₉ h₉ ↦ ?_
  rw [if_neg (by omega)]
  refine (Inner.updateSub h₉.third.swap hl (by omega)).seq fun _ t₁₀ h₁₀ ↦ ?_
  refine (Inner.updateSub h₁₀.third.swap hr (by omega)).seq fun _ t₁₁ h₁₁ ↦ ?_
  refine Inner.loadSub h₁₁ mem₂ (by omega) ?_
  refine (Inner.storeSub h₁₁.swap (by omega)).seq fun _ t₁₂ h₁₂ ↦ ?_
  refine Inner.loadKey h₁₂ mem₁ (by omega) ?_
  refine h₁₂.node_bind mem₁ ?_
  dsimp only
  rw [show (k : ℤ) + 1 - sp - 1 = k - sp by omega]
  refine (Inner.moveKeys h₁₂ mem₁ (by omega)).seq fun _ t₁₃ h₁₃ ↦ ?_
  refine h₁₃.node_bind mem₁ ?_
  dsimp only
  rw [show (k : ℤ) + 1 - sp - 1 = k - sp by omega]
  refine (Inner.moveSubs h₁₃ mem₁ (by omega)).seq fun _ t₁₄ h₁₄ ↦ ?_
  refine runs_pure ⟨_, _, _, _, h₁₄, ?_, ?_, ?_, ?_⟩
  · rw [Inner.block_eq (k := sp) ⟨rfl, rfl⟩]
    exact front_update_pair (by omega)
  · rw [Inner.block_eq (k := sp) ⟨rfl, rfl⟩]
    simp only [front_insert_take_last hp (show sp ≤ k by omega),
      front_replace_take hp (show sp ≤ k by omega)]
  · rw [Inner.block_eq (k := k - sp) ⟨rfl, by dsimp only; omega⟩]
    simp only [show k - sp + 1 = k + 1 - sp by omega,
      ← front_insert_drop_succ (show p ≤ sp by omega) (show sp ≤ k by omega),
      ← front_replace_drop hp (show sp ≤ k by omega)]
  · rw [getElem?_splice (by omega) (by simp; omega), spliced, if_neg (by omega),
      dif_neg (by simp; omega)]
    congr 2
    simp
    omega

theorem nonLeafSplitRight1_run {k sp : ℕ} {key : ℤ}
    (h : Rep t st [(d, m), (c, n), (lc, l), (rc, r)]) (hn : Inner n k) (hm : New .nonLeaf m)
    (hfresh : Away [(c, n), (lc, l), (rc, r)] st.fresh)
    (hnext : Beside st [(c, n), (lc, l), (rc, r)] n.next)
    (hvals : ∀ v ∈ splice (block n).vals sp [] 1, Fetchable st [(c, n), (lc, l), (rc, r)] v)
    (hk : k + 1 = cf.maxOrder) (hk₃ : 3 ≤ k) (hsp : sp = (k + 1) / 2)
    (hl : l.self ≠ invalidOffset) (hr : r.self ≠ invalidOffset) :
    Runs (nonLeafSplitRight1 cf c d lc rc key sp) t fun key' t' ↦ ∃ n' m' xs ys,
      Rep t' (adopt (setPrev (st.alloc cf) n.next st.fresh) st.fresh (xs ++ ys) l r)
        [(c, n'), (d, m')] ∧
      (block m').vals = xs ++ l.self :: r.self :: ys ∧
      block n' = { block n with
        next := st.fresh
        count := sp
        keys := (splice (block n).keys sp [key] 0).take (sp - 1)
        vals := (splice (block n).vals sp [l.self, r.self] 1).take sp } ∧
      block m' = ⟨st.fresh, invalidOffset, n.self, n.next, .nonLeaf, (k + 2 - sp : ℕ),
        (splice (block n).keys sp [key] 0).drop sp,
        (splice (block n).vals sp [l.self, r.self] 1).drop sp⟩ ∧
      (splice (block n).keys sp [key] 0)[sp - 1]? = some key' := by
  rw [hn.block_eq] at hvals ⊢
  obtain ⟨s, q, pn, nn, _, _, a, b, u⟩ := n
  obtain ⟨rfl, rfl⟩ := hn
  obtain ⟨s', q', l', r', _, x', a', b', u'⟩ := m
  obtain ⟨rfl, rfl, rfl, rfl, rfl, rfl⟩ := hm
  dsimp only at hnext hvals ⊢
  refine (rightNodeAdd_run h le_rfl hfresh hnext).seq fun _ t₁ h₁ ↦ ?_
  dsimp only at h₁
  rw [← hk]
  refine Inner.loadKey h₁ mem₁ (by omega) ?_
  dsimp only
  simp only [zero_add]
  refine (Inner.setChildren h₁ rfl).seq fun _ t₂ h₂ ↦ ?_
  refine (Inner.setChildren h₂.swap rfl).seq fun _ t₃ h₃ ↦ ?_
  refine (Inner.storeKey h₃ (by omega)).seq fun _ t₄ h₄ ↦ ?_
  refine (Inner.updateSub h₄.third.swap hl (by omega)).seq fun _ t₅ h₅ ↦ ?_
  refine (Inner.updateSub h₅.third.swap hr (by omega)).seq fun _ t₆ h₆ ↦ ?_
  refine h₆.node_bind mem₁ ?_
  dsimp only
  rw [show (k : ℤ) + 1 - sp + 1 - 2 = k - sp by omega]
  refine (Inner.moveKeys h₆ mem₂ (by omega)).seq fun _ t₇ h₇ ↦ ?_
  refine h₇.node_bind mem₁ ?_
  dsimp only
  rw [show (k : ℤ) + 1 - sp + 1 - 2 = k - sp by omega]
  refine (Inner.moveSubs h₇ mem₂ (by omega)).seq fun _ t₈ h₈ ↦ ?_
  refine h₈.node_bind mem₁ ?_
  dsimp only
  rw [show ((k : ℤ) + 1 - sp + 1 - 2).toNat = k - sp by omega]
  have hmoved : ∀ v ∈ flushed (blit (Function.update (Function.update u' 0 l.self) 1 r.self) 2 u
      (sp + 1) (k - sp)) (fun _ ↦ false) (k - sp) 2, v ∈ splice (front u (k + 1)) sp [] 1 := by
    rw [flushed_eq_front fun _ _ _ ↦ rfl]
    intro v hv
    obtain ⟨i, hi, rfl⟩ := mem_front.mp hv
    simp only [blit]
    rw [if_pos (by omega)]
    exact mem_splice_nil (by omega) (by omega) (by omega) (by omega)
  refine (subNodesFlush_run h₈ mem₁ (by simp) (by omega) (by omega) (fun v hv ↦ ?_)
    fun v hv ↦ ?_).seq fun _ t₉ h₉ ↦ ?_
  · exact ((Present.setPrev (Present.alloc (hvals v (hmoved v hv)).present)).write _).write _
  · have ha := away_cons.mp (hvals v (hmoved v hv)).away
    exact away_cons.mpr ⟨(hvals v (hmoved v hv)).fresh.symm, away_cons.mpr ⟨ha.1, away_nil⟩⟩
  dsimp only at h₉
  rw [adopt_eq (fun hv ↦ (hvals _ (hmoved _ hv)).away _ mem₂ rfl)
      (fun hv ↦ (hvals _ (hmoved _ hv)).away _ mem₃ rfl),
    flushed_eq_front fun _ _ _ ↦ rfl] at h₉
  refine runs_pure ⟨_, _, [], _, h₉.swap, ?_, ?_, ?_, ?_⟩
  · rw [Inner.block_eq (k := k + 1 - sp) ⟨rfl, by dsimp only; omega⟩]
    dsimp only
    rw [front_cons_cons (x := l.self) (y := r.self) (by omega) (by simp [blit]) (by simp [blit]),
      show k + 1 - sp + 1 - 2 = k - sp by omega]
    rfl
  · rw [Inner.block_eq (k := sp - 1) ⟨rfl, by dsimp only; omega⟩]
    simp only [show sp - 1 + 1 = sp by omega, ← front_take_insert (show sp - 1 ≤ sp by omega)
      (show sp ≤ k by omega), ← front_take_replace le_rfl (show sp ≤ k by omega)]
  · rw [Inner.block_eq (k := k + 1 - sp) ⟨rfl, by dsimp only; omega⟩]
    simp only [show k + 1 - sp + 1 = k + 2 - sp by omega, front_cons_drop (show sp ≤ k by omega),
      front_cons_cons_drop (show sp ≤ k by omega)]
  · rw [getElem?_splice (by omega) (by simp; omega), spliced, if_pos (by omega)]
    congr 2
    omega

theorem nonLeafSplitRight2_run {p k sp : ℕ} {key : ℤ}
    (h : Rep t st [(d, m), (c, n), (lc, l), (rc, r)]) (hn : Inner n k) (hm : New .nonLeaf m)
    (hfresh : Away [(c, n), (lc, l), (rc, r)] st.fresh)
    (hnext : Beside st [(c, n), (lc, l), (rc, r)] n.next)
    (hvals : ∀ v ∈ splice (block n).vals p [] 1, Fetchable st [(c, n), (lc, l), (rc, r)] v)
    (hk : k + 1 = cf.maxOrder) (hk₃ : 3 ≤ k) (hsp : sp = (k + 1) / 2) (hp : sp < p) (hp' : p ≤ k)
    (hl : l.self ≠ invalidOffset) (hr : r.self ≠ invalidOffset) :
    Runs (nonLeafSplitRight2 cf c d lc rc key p sp) t fun key' t' ↦ ∃ n' m' xs ys,
      Rep t' (adopt (setPrev (st.alloc cf) n.next st.fresh) st.fresh (xs ++ ys) l r)
        [(c, n'), (d, m')] ∧
      (block m').vals = xs ++ l.self :: r.self :: ys ∧
      block n' = { block n with
        next := st.fresh
        count := (sp + 1 : ℕ)
        keys := (splice (block n).keys p [key] 0).take sp
        vals := (splice (block n).vals p [l.self, r.self] 1).take (sp + 1) } ∧
      block m' = ⟨st.fresh, invalidOffset, n.self, n.next, .nonLeaf, (k + 1 - sp : ℕ),
        (splice (block n).keys p [key] 0).drop (sp + 1),
        (splice (block n).vals p [l.self, r.self] 1).drop (sp + 1)⟩ ∧
      (splice (block n).keys p [key] 0)[sp]? = some key' := by
  rw [hn.block_eq] at hvals ⊢
  obtain ⟨s, q, pn, nn, _, _, a, b, u⟩ := n
  obtain ⟨rfl, rfl⟩ := hn
  obtain ⟨s', q', l', r', _, x', a', b', u'⟩ := m
  obtain ⟨rfl, rfl, rfl, rfl, rfl, rfl⟩ := hm
  dsimp only at hnext hvals ⊢
  obtain ⟨z, hz⟩ : ∃ z : ℕ, (p : ℤ) - sp - 1 = z := ⟨p - sp - 1, by omega⟩
  refine (rightNodeAdd_run h le_rfl hfresh hnext).seq fun _ t₁ h₁ ↦ ?_
  dsimp only at h₁
  refine Inner.loadKey h₁ mem₁ (by omega) ?_
  dsimp only
  rw [← hk, hz, show (k : ℤ) + 1 - p - 1 = k - p by omega]
  refine (Inner.setChildren h₁ rfl).seq fun _ t₂ h₂ ↦ ?_
  refine (Inner.setChildren h₂.swap rfl).seq fun _ t₃ h₃ ↦ ?_
  refine (Inner.moveKeys h₃ mem₂ (by omega)).seq fun _ t₄ h₄ ↦ ?_
  refine (Inner.moveSubs h₄ mem₂ (by omega)).seq fun _ t₅ h₅ ↦ ?_
  refine (Inner.storeKey h₅ (by omega)).seq fun _ t₆ h₆ ↦ ?_
  refine (Inner.updateSub h₆.third.swap hl (by omega)).seq fun _ t₇ h₇ ↦ ?_
  refine (Inner.updateSub h₇.third.swap hr (by omega)).seq fun _ t₈ h₈ ↦ ?_
  refine (Inner.moveKeys h₈ mem₂ (by omega)).seq fun _ t₉ h₉ ↦ ?_
  refine (Inner.moveSubs h₉ mem₂ (by omega)).seq fun _ t₁₀ h₁₀ ↦ ?_
  refine h₁₀.node_bind mem₁ ?_
  dsimp only
  rw [show ((k : ℤ) + 1 - sp).toNat = k + 1 - sp by omega]
  have hmoved : ∀ v ∈ flushed (blit (Function.update (Function.update (blit u' 0 u (sp + 1) z) z
      l.self) (z + 1) r.self) (z + 2) u (p + 1) (k - p)) (fun i ↦ i = z || i = z + 1)
      (k + 1 - sp) 0, v ∈ splice (front u (k + 1)) p [] 1 := by
    rw [flushed_pair (by omega)]
    intro v hv
    rcases List.mem_append.mp hv with hv | hv
    · obtain ⟨i, hi, rfl⟩ := mem_front.mp hv
      simp only [blit]
      rw [if_neg (by omega), Function.update_of_ne (by omega), Function.update_of_ne (by omega),
        blit, if_pos (by omega)]
      exact mem_splice_nil (by omega) (by omega) (by omega) (by omega)
    · obtain ⟨i, hi, rfl⟩ := mem_front.mp hv
      simp only [blit]
      rw [if_pos (by omega)]
      exact mem_splice_nil (by omega) (by omega) (by omega) (by omega)
  refine (subNodesFlush_run h₁₀ mem₁ (by simp) (by omega) (by omega) (fun v hv ↦ ?_)
    fun v hv ↦ ?_).seq fun _ t₁₁ h₁₁ ↦ ?_
  · exact ((Present.setPrev (Present.alloc (hvals v (hmoved v hv)).present)).write _).write _
  · have ha := away_cons.mp (hvals v (hmoved v hv)).away
    exact away_cons.mpr ⟨(hvals v (hmoved v hv)).fresh.symm, away_cons.mpr ⟨ha.1, away_nil⟩⟩
  dsimp only at h₁₁
  rw [adopt_eq (fun hv ↦ (hvals _ (hmoved _ hv)).away _ mem₂ rfl)
      (fun hv ↦ (hvals _ (hmoved _ hv)).away _ mem₃ rfl),
    flushed_pair (by omega)] at h₁₁
  refine runs_pure ⟨_, _, _, _, h₁₁.swap, ?_, ?_, ?_, ?_⟩
  · rw [Inner.block_eq (k := k - sp) ⟨rfl, by dsimp only; omega⟩]
    dsimp only
    rw [show k - sp + 1 = k + 1 - sp by omega]
    refine front_pair (by omega) ?_ ?_
    · rw [blit, if_neg (by omega), Function.update_of_ne (by omega), Function.update_self]
    · rw [blit, if_neg (by omega), Function.update_self]
  · rw [Inner.block_eq (k := sp) ⟨rfl, by dsimp only⟩]
    simp only [← front_take_insert (show sp ≤ p by omega) hp',
      ← front_take_replace (show sp + 1 ≤ p by omega) hp']
  · rw [Inner.block_eq (k := k - sp) ⟨rfl, by dsimp only; omega⟩]
    have hz' : (z : ℤ) = p - (sp + 1 : ℕ) := by omega
    have hd : (sp : ℤ) + 1 = (sp + 1 : ℕ) := by omega
    simp only [front_drop_insert (show sp + 1 + (k - sp) = k + 1 by omega) hz' hd hp',
      front_drop_replace (show sp + 1 + (k + 1 - sp) = k + 2 by omega) hz' hd hp',
      show k - sp + 1 = k + 1 - sp by omega]
  · rw [getElem?_splice (by omega) (by simp; omega), spliced, if_pos (by omega)]

end Insert

section Remove

theorem nonLeafSimpleRemove_run {p k : ℕ} (h : Rep t st ((c, n) :: live)) (hn : Inner n k)
    (hp : p < k) (hk : k < cf.maxOrder) :
    Runs (nonLeafSimpleRemove cf c p) t fun _ t' ↦ ∃ n', Rep t' st ((c, n') :: live) ∧
      block n' = { block n with
        count := k
        keys := splice (block n).keys p [] 1
        vals := splice (block n).vals (p + 1) [] 1 } := by
  obtain ⟨s, q, pn, nn, _, _, a, b, u⟩ := n
  obtain ⟨rfl, rfl⟩ := hn
  refine h.node_bind mem₁ ?_
  dsimp only
  refine (assert_run (by simp; omega)).seq ?_
  rintro _ _ rfl
  rw [show (k : ℤ) + 1 - p - 2 = k - p - 1 by omega]
  refine (Inner.moveKeys h mem₁ (by omega)).seq fun _ t₁ h₁ ↦ ?_
  refine (Inner.moveSubs h₁ mem₁ (by omega)).seq fun _ t₂ h₂ ↦ ?_
  refine (Inner.setChildren h₂ rfl).mono fun _ t₃ h₃ ↦ ⟨_, h₃, ?_⟩
  rw [Inner.block_eq (k := k - 1) ⟨rfl, by dsimp only; omega⟩, Inner.block_eq (k := k) ⟨rfl, rfl⟩]
  dsimp only
  rw [front_remove hp (by omega) rfl rfl rfl,
    front_remove (k := k + 1) (r := p + 1) (by omega) (by omega) (by omega) (by omega) (by omega),
    show k - 1 + 1 = k by omega]

theorem nonLeafShiftFromLeft_run {p k k' i q : ℕ} {ks vs : List ℤ} {x y z : ℤ}
    (h : Rep t st ((c, n) :: (d, m) :: (e, w) :: live)) (hlen : live.length ≤ 1)
    (hn : Inner n k) (hm : Inner m (k' + 1)) (hw : Inner w q) (hp : p < k) (hk : k < cf.maxOrder)
    (hk' : k' + 1 < cf.maxOrder) (hks : (block m).keys = ks ++ [x])
    (hvs : (block m).vals = vs ++ [y]) (hi : (block w).keys[i]? = some z) (hq : q < cf.maxOrder)
    (hpres : Present st y) (haway : Away ((c, n) :: (d, m) :: (e, w) :: live) y) :
    Runs (nonLeafShiftFromLeft cf c d e i p) t fun _ t' ↦ ∃ n' m' w',
      Rep t' (reparent st n.self [y]) ((c, n') :: (d, m') :: (e, w') :: live) ∧
      block n' = { block n with
        keys := z :: splice (block n).keys p [] 1
        vals := y :: splice (block n).vals (p + 1) [] 1 } ∧
      block m' = { block m with count := (k' + 1 : ℕ), keys := ks, vals := vs } ∧
      block w' = { block w with keys := splice (block w).keys i [x] 1 } := by
  rw [hm.block_eq] at hks hvs
  rw [hw.block_eq] at hi
  obtain ⟨rfl, rfl⟩ := front_succ_inj hks
  obtain ⟨rfl, rfl⟩ := front_succ_inj hvs
  obtain ⟨hiq, rfl⟩ := getElem?_front hi
  obtain ⟨s, q', pn, nn, _, _, a, b, u⟩ := n
  obtain ⟨rfl, rfl⟩ := hn
  obtain ⟨s', p', l', r', _, _, a', b', u'⟩ := m
  obtain ⟨rfl, rfl⟩ := hm
  obtain ⟨sw, pw, lw, nw, _, _, aw, bw, uw⟩ := w
  obtain ⟨rfl, rfl⟩ := hw
  refine (Inner.moveKeys h mem₁ (by omega)).seq fun _ t₁ h₁ ↦ ?_
  refine (Inner.moveSubs h₁ mem₁ (by omega)).seq fun _ t₂ h₂ ↦ ?_
  refine Inner.loadKey h₂ mem₃ (by omega) ?_
  refine (Inner.storeKey h₂ (by omega)).seq fun _ t₃ h₃ ↦ ?_
  refine h₃.node_bind mem₂ ?_
  dsimp only at hpres haway ⊢
  rw [show ((k' + 1 : ℕ) : ℤ) + 1 - 2 = k' by omega]
  refine Inner.loadKey h₃ mem₂ (by omega) ?_
  refine (Inner.storeKey h₃.third (by omega)).seq fun _ t₄ h₄ ↦ ?_
  refine h₄.node_bind mem₃ ?_
  dsimp only
  rw [show ((k' + 1 : ℕ) : ℤ) + 1 - 1 = (k' + 1 : ℕ) by omega]
  refine Inner.loadSub h₄ mem₃ (by omega) ?_
  refine (Inner.storeSub h₄.swap (by omega)).seq fun _ t₅ h₅ ↦ ?_
  refine Inner.loadSub h₅ mem₁ (by omega) ?_
  rw [Function.update_self]
  simp only [away_cons] at haway
  have haway' := And.intro haway.1 (And.intro haway.2.2.1 (And.intro haway.2.1 haway.2.2.2))
  refine (subNodeFlush_run h₅ mem₁ hpres (by simpa using haway') (by simp; omega)).seq fun _ t₆ h₆ ↦ ?_
  refine (Inner.setChildren h₆.third rfl).mono fun _ t₇ h₇ ↦ ?_
  refine ⟨_, _, _, h₇.swap, ?_, ?_, ?_⟩
  · rw [Inner.block_eq (k := k) ⟨rfl, rfl⟩, Inner.block_eq (k := k) ⟨rfl, rfl⟩]
    dsimp only
    rw [front_cons_remove hp rfl, front_cons_remove (r := p + 1) (by omega) (by omega)]
  · rw [Inner.block_eq (k := k') ⟨rfl, by dsimp only; omega⟩,
      Inner.block_eq (k := k' + 1) ⟨rfl, rfl⟩]
  · rw [Inner.block_eq (k := q) ⟨rfl, rfl⟩, Inner.block_eq (k := q) ⟨rfl, rfl⟩]
    simp only [front_set hiq]

theorem nonLeafMergeIntoLeft_run {p k k' i q : ℕ} {z : ℤ}
    (h : Rep t st ((c, n) :: (d, m) :: (e, w) :: live)) (hlen : live.length ≤ 1)
    (hn : Inner n k) (hm : Inner m k') (hw : Inner w q) (hp : p < k) (hk : k < cf.maxOrder)
    (hk' : k' + 1 + k ≤ cf.maxOrder) (hi : (block w).keys[i]? = some z) (hq : q < cf.maxOrder)
    (hpres : ∀ v ∈ splice (block n).vals (p + 1) [] 1, Present st v)
    (haway : ∀ v ∈ splice (block n).vals (p + 1) [] 1,
      Away ((c, n) :: (d, m) :: (e, w) :: live) v) :
    Runs (nonLeafMergeIntoLeft cf c d e i p) t fun _ t' ↦ ∃ m',
      Rep t' (reparent st m.self (splice (block n).vals (p + 1) [] 1))
        ((c, n) :: (d, m') :: (e, w) :: live) ∧
      block m' = { block m with
        count := (k' + 1 + k : ℕ)
        keys := (block m).keys ++ z :: splice (block n).keys p [] 1
        vals := (block m).vals ++ splice (block n).vals (p + 1) [] 1 } := by
  rw [hw.block_eq] at hi
  rw [hn.block_eq] at hpres haway ⊢
  obtain ⟨hiq, rfl⟩ := getElem?_front hi
  obtain ⟨s, q', pn, nn, _, _, a, b, u⟩ := n
  obtain ⟨rfl, rfl⟩ := hn
  obtain ⟨s', p', l', r', _, _, a', b', u'⟩ := m
  obtain ⟨rfl, rfl⟩ := hm
  obtain ⟨sw, pw, lw, nw, _, _, aw, bw, uw⟩ := w
  obtain ⟨rfl, rfl⟩ := hw
  refine h.node_bind mem₂ (h.node_bind mem₁ ?_)
  dsimp only at hpres ⊢
  refine Inner.loadKey h mem₃ (by omega) ?_
  rw [show (k' : ℤ) + 1 - 1 = k' by omega]
  refine (Inner.storeKey h.swap (by omega)).seq fun _ t₁ h₁ ↦ ?_
  refine (Inner.moveKeys h₁ mem₂ (by omega)).seq fun _ t₂ h₂ ↦ ?_
  refine (Inner.moveSubs h₂ mem₂ (by omega)).seq fun _ t₃ h₃ ↦ ?_
  refine (Inner.moveKeys h₃ mem₂ (by omega)).seq fun _ t₄ h₄ ↦ ?_
  refine (Inner.moveSubs h₄ mem₂ (by omega)).seq fun _ t₅ h₅ ↦ ?_
  rw [show ((k : ℤ) + 1 - 1).toNat = k by omega]
  have hsub : front (blit (blit u' (k' + 1) u 0 (p + 1)) (k' + 1 + p + 1) u (p + 2)
      (k + 1 - p - 2)) (k' + 1 + k) =
      front u' (k' + 1) ++ splice (front u (k + 1)) (p + 1) [] 1 := by
    rw [front_append_remove] <;> omega
  have hmoved : flushed (blit (blit u' (k' + 1) u 0 (p + 1)) (k' + 1 + p + 1) u (p + 2)
      (k + 1 - p - 2)) (fun _ ↦ false) k (k' + 1) = splice (front u (k + 1)) (p + 1) [] 1 := by
    rw [flushed_eq_drop (m := k' + 1) (by omega), hsub, List.drop_left' (length_front _ _)]
  refine (subNodesFlush_run h₅ mem₁ (by simp; omega) (by omega) (by omega) ?_ ?_).seq
    fun _ t₆ h₆ ↦ ?_
  · rw [hmoved]
    exact hpres
  · rw [hmoved]
    intro v hv
    have ha := haway v hv
    simp only [away_cons] at ha ⊢
    exact ⟨ha.2.1, ha.1, ha.2.2⟩
  rw [hmoved] at h₆
  refine (Inner.setChildren h₆ rfl).mono fun _ t₇ h₇ ↦ ⟨_, h₇.swap, ?_⟩
  rw [Inner.block_eq (k := k' + k) ⟨rfl, by dsimp only; omega⟩,
    Inner.block_eq (k := k') ⟨rfl, rfl⟩]
  dsimp only
  rw [show k' + k + 1 = k' + 1 + k by omega, hsub, front_append_remove (k := k) (m := k' + 1) hp
    (by omega) (by omega) rfl (by omega) rfl (by omega), front_concat, List.append_assoc]
  rfl

theorem nonLeafShiftFromRight_run {k k' i q : ℕ} {ks vs : List ℤ} {x y z : ℤ}
    (h : Rep t st ((c, n) :: (d, m) :: (e, w) :: live)) (hlen : live.length ≤ 1)
    (hn : Inner n k) (hm : Inner m (k' + 1)) (hw : Inner w q) (hk : k + 1 < cf.maxOrder)
    (hk' : k' + 1 < cf.maxOrder) (hks : (block m).keys = x :: ks)
    (hvs : (block m).vals = y :: vs) (hi : (block w).keys[i]? = some z) (hq : q < cf.maxOrder)
    (hpres : Present st y) (haway : Away ((c, n) :: (d, m) :: (e, w) :: live) y) :
    Runs (nonLeafShiftFromRight cf c d e i) t fun _ t' ↦ ∃ n' m' w',
      Rep t' (reparent st n.self [y]) ((c, n') :: (d, m') :: (e, w') :: live) ∧
      block n' = { block n with
        count := (k + 2 : ℕ)
        keys := (block n).keys ++ [z]
        vals := (block n).vals ++ [y] } ∧
      block m' = { block m with count := (k' + 1 : ℕ), keys := ks, vals := vs } ∧
      block w' = { block w with keys := splice (block w).keys i [x] 1 } := by
  rw [hm.block_eq] at hks hvs
  rw [hw.block_eq] at hi
  obtain ⟨rfl, hks'⟩ := front_cons_inj hks
  obtain ⟨rfl, hvs'⟩ := front_cons_inj hvs
  obtain ⟨hiq, rfl⟩ := getElem?_front hi
  obtain ⟨s, q', pn, nn, _, _, a, b, u⟩ := n
  obtain ⟨rfl, rfl⟩ := hn
  obtain ⟨s', p', l', r', _, _, a', b', u'⟩ := m
  obtain ⟨rfl, rfl⟩ := hm
  obtain ⟨sw, pw, lw, nw, _, _, aw, bw, uw⟩ := w
  obtain ⟨rfl, rfl⟩ := hw
  refine h.node_bind mem₁ ?_
  dsimp only at hpres haway hks' hvs' ⊢
  rw [show (k : ℤ) + 1 - 1 = k by omega]
  refine Inner.loadKey h mem₃ (by omega) ?_
  refine (Inner.storeKey h (by omega)).seq fun _ t₁ h₁ ↦ ?_
  refine Inner.loadKey h₁ mem₂ (by omega) ?_
  refine (Inner.storeKey h₁.third (by omega)).seq fun _ t₂ h₂ ↦ ?_
  refine Inner.loadSub h₂ mem₃ (by omega) ?_
  refine (Inner.storeSub h₂.swap (by omega)).seq fun _ t₃ h₃ ↦ ?_
  refine Inner.loadSub h₃ mem₁ (by omega) ?_
  rw [Function.update_self]
  simp only [away_cons] at haway
  have haway' := And.intro haway.1 (And.intro haway.2.2.1 (And.intro haway.2.1 haway.2.2.2))
  refine (subNodeFlush_run h₃ mem₁ hpres (by simpa using haway') (by simp; omega)).seq fun _ t₄ h₄ ↦ ?_
  refine (Inner.setChildren h₄ rfl).seq fun _ t₅ h₅ ↦ ?_
  refine h₅.node_bind mem₃ ?_
  dsimp only
  rw [show ((k' + 1 : ℕ) : ℤ) + 1 - 2 = k' by omega,
    show ((k' + 1 : ℕ) : ℤ) + 1 - 1 = (k' + 1 : ℕ) by omega]
  refine (Inner.moveKeys h₅.third mem₁ (by omega)).seq fun _ t₆ h₆ ↦ ?_
  refine (Inner.moveSubs h₆ mem₁ (by omega)).seq fun _ t₇ h₇ ↦ ?_
  refine (Inner.setChildren h₇ rfl).mono fun _ t₈ h₈ ↦ ?_
  refine ⟨_, _, _, h₈.swap, ?_, ?_, ?_⟩
  · rw [Inner.block_eq (k := k + 1) ⟨rfl, rfl⟩, Inner.block_eq (k := k) ⟨rfl, rfl⟩]
    dsimp only
    rw [front_concat, show (k : ℤ) + 1 = (k + 1 : ℕ) by omega, front_concat]
  · rw [Inner.block_eq (k := k') ⟨rfl, by dsimp only; omega⟩,
      Inner.block_eq (k := k' + 1) ⟨rfl, rfl⟩]
    simp only [hks', hvs']
  · rw [Inner.block_eq (k := q) ⟨rfl, rfl⟩, Inner.block_eq (k := q) ⟨rfl, rfl⟩]
    simp only [front_set hiq]

theorem nonLeafMergeFromRight_run {k k' i q : ℕ} {z : ℤ}
    (h : Rep t st ((c, n) :: (d, m) :: (e, w) :: live)) (hlen : live.length ≤ 1)
    (hn : Inner n k) (hm : Inner m k') (hw : Inner w q) (hk : k + k' + 2 ≤ cf.maxOrder)
    (hi : (block w).keys[i]? = some z) (hq : q < cf.maxOrder)
    (hpres : ∀ v ∈ (block m).vals, Present st v)
    (haway : ∀ v ∈ (block m).vals, Away ((c, n) :: (d, m) :: (e, w) :: live) v) :
    Runs (nonLeafMergeFromRight cf c d e i) t fun _ t' ↦ ∃ n',
      Rep t' (reparent st n.self (block m).vals) ((c, n') :: (d, m) :: (e, w) :: live) ∧
      block n' = { block n with
        count := (k + k' + 2 : ℕ)
        keys := (block n).keys ++ z :: (block m).keys
        vals := (block n).vals ++ (block m).vals } := by
  rw [hw.block_eq] at hi
  rw [hm.block_eq] at hpres haway ⊢
  obtain ⟨hiq, rfl⟩ := getElem?_front hi
  obtain ⟨s, q', pn, nn, _, _, a, b, u⟩ := n
  obtain ⟨rfl, rfl⟩ := hn
  obtain ⟨s', p', l', r', _, _, a', b', u'⟩ := m
  obtain ⟨rfl, rfl⟩ := hm
  obtain ⟨sw, pw, lw, nw, _, _, aw, bw, uw⟩ := w
  obtain ⟨rfl, rfl⟩ := hw
  refine h.node_bind mem₁ ?_
  dsimp only at hpres ⊢
  rw [show (k : ℤ) + 1 - 1 = k by omega]
  refine Inner.loadKey h mem₃ (by omega) ?_
  refine (Inner.storeKey h (by omega)).seq fun _ t₁ h₁ ↦ ?_
  refine (Inner.setChildren h₁ rfl).seq fun _ t₂ h₂ ↦ ?_
  refine h₂.node_bind mem₁ (h₂.node_bind mem₂ ?_)
  dsimp only
  rw [show (k' : ℤ) + 1 - 1 = k' by omega, show (k : ℤ) + 1 + 1 - 1 = (k + 1 : ℕ) by omega,
    show ((k' : ℤ) + 1).toNat = k' + 1 by omega]
  refine (Inner.moveKeys h₂ mem₂ (by omega)).seq fun _ t₃ h₃ ↦ ?_
  refine (Inner.moveSubs h₃ mem₂ (by omega)).seq fun _ t₄ h₄ ↦ ?_
  have hsub : front (blit u (k + 1 : ℕ) u' 0 (k' + 1)) (k + 1 + (k' + 1)) =
      front u (k + 1) ++ front u' (k' + 1) := front_append rfl rfl (by omega)
  have hmoved : flushed (blit u (k + 1 : ℕ) u' 0 (k' + 1)) (fun _ ↦ false) (k' + 1) (k + 1 : ℕ) =
      front u' (k' + 1) := by
    rw [flushed_eq_drop rfl, hsub, List.drop_left' (length_front _ _)]
  refine (subNodesFlush_run h₄ mem₁ (by simp; omega) (by omega) (by omega) ?_ ?_).seq
    fun _ t₅ h₅ ↦ ?_
  · rw [hmoved]
    exact hpres
  · rw [hmoved]
    intro v hv
    have ha := haway v hv
    simpa only [away_cons] using ha
  rw [hmoved] at h₅
  refine (Inner.setChildren h₅ rfl).mono fun _ t₆ h₆ ↦ ⟨_, h₆, ?_⟩
  rw [Inner.block_eq (k := k + 1 + k') ⟨rfl, by dsimp only; omega⟩,
    Inner.block_eq (k := k) ⟨rfl, rfl⟩]
  dsimp only
  rw [Nat.add_assoc (k + 1) k' 1, hsub, front_append (k := k + 1) rfl rfl rfl, front_concat,
    List.append_assoc, show k + 1 + (k' + 1) = k + k' + 2 by omega]
  rfl

end Remove

end MqssdModel.BPlusTree.InnerSpecs
