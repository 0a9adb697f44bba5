import MqssdModel.BPlusTree.Caching

namespace MqssdModel.BPlusTree.Routines

open Data.Arrays Data.TotalRun Machine Caching

/-- The block at `q` after `f`, if there is a block. -/
def alter (st : Store) (q : ℤ) (f : Block → Block) : Store :=
  { st with disk := Function.update st.disk q ((st.disk q).map f) }

def setNext (st : Store) (q v : ℤ) : Store :=
  if q = invalidOffset then st else alter st q fun b ↦ { b with next := v }

def setPrev (st : Store) (q v : ℤ) : Store :=
  if q = invalidOffset then st else alter st q fun b ↦ { b with prev := v }

def reparent (st : Store) (p : ℤ) : List ℤ → Store
  | [] => st
  | q :: qs => reparent (alter st q fun b ↦ { b with parent := p }) p qs

/-- A block that can be fetched. -/
def Present (st : Store) (q : ℤ) : Prop := q ≠ invalidOffset ∧ (st.disk q).isSome

variable {cf : Config} {t : Tree} {st : Store} {live opt : List (Ptr × Node)} {c d : Ptr}
  {n m : Node} {p : Option Ptr} {q v : ℤ}

theorem write_eq_alter (h : Rep t st live) {b : Block} (hb : st.disk q = some b) (f : Block → Block)
    (hf : (f b).self = b.self) : st.write (f b) = alter st q f := by
  unfold Store.write alter
  rw [hf, h.self q b hb, hb, Option.map_some]

theorem write_same (h : Rep t st live) {b : Block} (hb : st.disk q = some b) :
    st.write b = st := by
  have he : Function.update st.disk b.self (some b) = st.disk := by
    rw [h.self q b hb, ← hb, Function.update_eq_self]
  unfold Store.write
  rw [he]

theorem Present.alter {q' : ℤ} (h : Present st q) (f : Block → Block) :
    Present (alter st q' f) q := by
  refine ⟨h.1, ?_⟩
  by_cases he : q = q'
  · subst he
    simpa [Routines.alter] using h.2
  · simpa [Routines.alter, Function.update_of_ne he] using h.2

theorem Present.write (h : Present st q) (b : Block) : Present (st.write b) q := by
  refine ⟨h.1, ?_⟩
  by_cases he : q = b.self
  · simp [Store.write, he]
  · simpa [Store.write, Function.update_of_ne he] using h.2

theorem alloc_disk : (st.alloc cf).disk = st.disk := by
  unfold Store.alloc
  split <;> rfl

theorem Present.alloc (h : Present st q) : Present (st.alloc cf) q := by
  refine ⟨h.1, ?_⟩
  rw [alloc_disk]
  exact h.2

theorem Present.setNext {q' : ℤ} (h : Present st q) : Present (setNext st q' v) q := by
  unfold Routines.setNext
  split
  · exact h
  · exact h.alter _

theorem Present.setPrev {q' : ℤ} (h : Present st q) : Present (setPrev st q' v) q := by
  unfold Routines.setPrev
  split
  · exact h
  · exact h.alter _

theorem subNodeUpdate_run {i : ℤ} (h : Rep t st ((c, n) :: (d, m) :: live))
    (hs : m.self ≠ invalidOffset) (hi : 0 ≤ i ∧ i < cf.maxOrder) :
    Runs (subNodeUpdate cf c i d) t fun _ t' ↦
      Rep t' (st.write { block m with parent := n.self })
        ((c, { n with sub := Function.update n.sub i m.self }) :: live) := by
  refine h.node_bind mem₂ ?_
  refine (assert_run (by simpa using hs)).seq ?_
  rintro _ _ rfl
  refine (h.store hi).seq fun _ t₁ h₁ ↦ ?_
  refine h₁.node_bind mem₁ ?_
  refine (h₁.swap.modifyNode _).seq fun _ t₂ h₂ ↦ ?_
  exact h₂.flush

theorem subNodeFlush_run (h : Rep t st live) (hm : (c, n) ∈ live) (hq : Present st q)
    (ha : Away live q) (hlen : live.length < 5) : Runs (subNodeFlush c q) t fun _ t' ↦
      Rep t' (alter st q fun b ↦ { b with parent := n.self }) live := by
  obtain ⟨b, hb⟩ := Option.isSome_iff_exists.mp hq.2
  refine (h.fetch hq.1 hb ha hlen).seq ?_
  rintro _ t₁ ⟨e, k, rfl, hk, h₁⟩
  refine h₁.node_bind (List.mem_cons_of_mem _ hm) ?_
  refine (h₁.modifyNode _).seq fun _ t₂ h₂ ↦ ?_
  refine h₂.flush.mono fun _ t₃ h₃ ↦ ?_
  rwa [show block { k with parent := n.self } = { b with parent := n.self } by rw [← hk]; rfl,
    write_eq_alter h hb (fun b ↦ { b with parent := n.self }) rfl] at h₃

/-- The offsets of the children that the loop over `count` children from `i` on flushes. -/
def flushed (sub : ℤ → ℤ) (skip : ℤ → Bool) : ℕ → ℤ → List ℤ
  | 0, _ => []
  | count + 1, i =>
    if skip i then flushed sub skip count (i + 1) else sub i :: flushed sub skip count (i + 1)

theorem subNodesFlush_run {skip : ℤ → Bool} {count : ℕ} {i : ℤ} (h : Rep t st live)
    (hm : (c, n) ∈ live) (hlen : live.length < 5) (hi : 0 ≤ i) (hcap : i + count ≤ cf.maxOrder)
    (hq : ∀ q ∈ flushed n.sub skip count i, Present st q)
    (ha : ∀ q ∈ flushed n.sub skip count i, Away live q) :
    Runs (subNodesFlush cf c skip count i) t fun _ t' ↦
      Rep t' (reparent st n.self (flushed n.sub skip count i)) live := by
  induction count generalizing t st i with
  | zero => exact runs_pure h
  | succ count ih =>
    unfold subNodesFlush
    by_cases hs : skip i = true
    · simp only [flushed, hs, if_true] at hq ha ⊢
      exact ih h (by omega) (by omega) hq ha
    · simp only [flushed, hs] at hq ha ⊢
      refine h.load_bind hm ⟨hi, by change i < cf.maxOrder; omega⟩ ?_
      refine (subNodeFlush_run h hm (hq _ List.mem_cons_self) (ha _ List.mem_cons_self)
        hlen).seq fun _ t₁ h₁ ↦ ?_
      exact ih h₁ (by omega) (by omega) (fun q hq' ↦ (hq q (List.mem_cons_of_mem _ hq')).alter _)
        fun q hq' ↦ ha q (List.mem_cons_of_mem _ hq')

/-- A neighbour as `node_fetch` returns it: `NULL` for no offset, else a cache with the
block at the offset. -/
inductive Neighbour (st : Store) (q : ℤ) : Option Ptr → List (Ptr × Node) → Prop
  | null : q = invalidOffset → Neighbour st q none []
  | node {c : Ptr} {n : Node} : q ≠ invalidOffset → st.disk q = some (block n) →
      Neighbour st q (some c) [(c, n)]

theorem Neighbour.length_le (h : Neighbour st q p opt) : opt.length ≤ 1 := by
  cases h with
  | null => exact Nat.zero_le 1
  | node => exact le_rfl

theorem Neighbour.congr {st' : Store} (h : Neighbour st q p opt)
    (hd : q ≠ invalidOffset → st'.disk q = st.disk q) : Neighbour st' q p opt := by
  cases h with
  | null hq => exact .null hq
  | node hq hb => exact .node hq ((hd hq).trans hb)

theorem fetch_run (h : Rep t st live) (hq : q = invalidOffset ∨ Present st q ∧ Away live q)
    (hlen : live.length < 5) : Runs (nodeFetch q) t fun p t' ↦
      ∃ opt, Neighbour st q p opt ∧ Rep t' st (opt ++ live) := by
  rcases hq with rfl | ⟨⟨hne, hsome⟩, ha⟩
  · unfold nodeFetch
    rw [if_pos rfl]
    exact runs_pure ⟨[], .null rfl, h⟩
  · obtain ⟨b, hb⟩ := Option.isSome_iff_exists.mp hsome
    refine (h.fetch hne hb ha hlen).mono ?_
    rintro _ t₁ ⟨c, n, rfl, rfl, h₁⟩
    exact ⟨[(c, n)], .node hne hb, h₁⟩

theorem flush_neighbour_run (h : Rep t st (opt ++ live)) (hp : Neighbour st q p opt) :
    Runs (nodeFlush p) t fun _ t' ↦ Rep t' st live := by
  cases hp with
  | null => exact runs_pure h
  | node _ hb =>
    refine Rep.flush h |>.mono fun _ t₁ h₁ ↦ ?_
    rwa [write_same h hb] at h₁

/-- A block that can be fetched beside the live caches and a block that was just allocated. -/
structure Fetchable (st : Store) (live : List (Ptr × Node)) (q : ℤ) : Prop where
  present : Present st q
  fresh : q ≠ st.fresh
  away : Away live q

def Beside (st : Store) (live : List (Ptr × Node)) (q : ℤ) : Prop :=
  q = invalidOffset ∨ Fetchable st live q

theorem leftNodeAdd_run (h : Rep t st ((d, m) :: (c, n) :: live)) (hlen : live.length ≤ 2)
    (hf : Away ((c, n) :: live) st.fresh) (hp : Beside st ((c, n) :: live) n.prev) :
    Runs (leftNodeAdd cf c d) t fun _ t' ↦
      Rep t' (setNext (st.alloc cf) n.prev st.fresh) ((c, { n with prev := st.fresh }) ::
        (d, { m with self := st.fresh, prev := n.prev, next := n.self }) :: live) := by
  refine (h.append hf).seq ?_
  rintro _ t₁ ⟨rfl, h₁⟩
  refine h₁.node_bind mem₂ ?_
  rcases hp with hp | ⟨⟨hne, hsome⟩, hfresh, ha⟩
  · rw [hp]
    refine fetch_invalid ?_
    refine (h₁.modifyNode _).seq fun _ t₂ h₂ ↦ ?_
    refine h₂.node_bind mem₂ ?_
    refine (h₂.modifyNode _).seq fun _ t₃ h₃ ↦ ?_
    refine (h₃.swap.modifyNode _).mono fun _ t₄ h₄ ↦ ?_
    rw [setNext, if_pos rfl]
    exact h₄
  · obtain ⟨b, hb⟩ := Option.isSome_iff_exists.mp hsome
    rw [← alloc_disk] at hb
    refine (h₁.fetch hne hb (away_cons.mpr ⟨hfresh.symm, ha⟩) (by simp; omega)).seq ?_
    rintro _ t₂ ⟨e, k, rfl, hk, h₂⟩
    refine (h₂.modifyNode _).seq fun _ t₃ h₃ ↦ ?_
    refine h₃.node_bind mem₁ ?_
    refine (h₃.swap.modifyNode _).seq fun _ t₄ h₄ ↦ ?_
    refine h₄.swap.flush.seq fun _ t₅ h₅ ↦ ?_
    refine h₅.node_bind mem₂ ?_
    refine (h₅.modifyNode _).seq fun _ t₆ h₆ ↦ ?_
    refine (h₆.swap.modifyNode _).mono fun _ t₇ h₇ ↦ ?_
    have hself : k.self = n.prev := by
      have := h₁.self _ b hb
      rw [← hk] at this
      exact this
    rw [setNext, if_neg hne, ← write_eq_alter h₁ hb (fun b ↦ { b with next := st.fresh }) rfl,
      ← hk, ← hself]
    exact h₇

theorem rightNodeAdd_run (h : Rep t st ((d, m) :: (c, n) :: live)) (hlen : live.length ≤ 2)
    (hf : Away ((c, n) :: live) st.fresh) (hp : Beside st ((c, n) :: live) n.next) :
    Runs (rightNodeAdd cf c d) t fun _ t' ↦
      Rep t' (setPrev (st.alloc cf) n.next st.fresh) ((c, { n with next := st.fresh }) ::
        (d, { m with self := st.fresh, prev := n.self, next := n.next }) :: live) := by
  refine (h.append hf).seq ?_
  rintro _ t₁ ⟨rfl, h₁⟩
  refine h₁.node_bind mem₂ ?_
  rcases hp with hp | ⟨⟨hne, hsome⟩, hfresh, ha⟩
  · rw [hp]
    refine fetch_invalid ?_
    refine (h₁.modifyNode _).seq fun _ t₂ h₂ ↦ ?_
    refine h₂.node_bind mem₂ ?_
    refine (h₂.modifyNode _).seq fun _ t₃ h₃ ↦ ?_
    refine (h₃.swap.modifyNode _).mono fun _ t₄ h₄ ↦ ?_
    rw [setPrev, if_pos rfl]
    exact h₄
  · obtain ⟨b, hb⟩ := Option.isSome_iff_exists.mp hsome
    rw [← alloc_disk] at hb
    refine (h₁.fetch hne hb (away_cons.mpr ⟨hfresh.symm, ha⟩) (by simp; omega)).seq ?_
    rintro _ t₂ ⟨e, k, rfl, hk, h₂⟩
    refine (h₂.modifyNode _).seq fun _ t₃ h₃ ↦ ?_
    refine h₃.node_bind mem₁ ?_
    refine (h₃.swap.modifyNode _).seq fun _ t₄ h₄ ↦ ?_
    refine h₄.swap.flush.seq fun _ t₅ h₅ ↦ ?_
    refine h₅.node_bind mem₂ ?_
    refine (h₅.modifyNode _).seq fun _ t₆ h₆ ↦ ?_
    refine (h₆.swap.modifyNode _).mono fun _ t₇ h₇ ↦ ?_
    have hself : k.self = n.next := by
      have := h₁.self _ b hb
      rw [← hk] at this
      exact this
    rw [setPrev, if_neg hne, ← write_eq_alter h₁ hb (fun b ↦ { b with prev := st.fresh }) rfl,
      ← hk, ← hself]
    exact h₇

theorem release_run (h : Rep t st ((c, n) :: live)) (hs : n.self ≠ invalidOffset) :
    Runs (nodeDelete c none none) t fun _ t' ↦ Rep t' (st.release n.self) live := by
  refine h.node_bind mem₁ ?_
  refine (assert_run (by simpa using hs)).seq ?_
  rintro _ _ rfl
  refine (h.modify (st.release n.self) ⟨rfl, rfl, rfl, rfl⟩
    ⟨h.root, h.level, h.fileSize, ?_, rfl⟩).seq fun _ t₁ h₁ ↦ h₁.cacheDefer
  rw [h.free]
  rfl

theorem nodeDelete_run (h : Rep t st ((c, n) :: (d, m) :: (opt ++ live)))
    (hp : Neighbour st q p opt) (hs : n.self ≠ invalidOffset) :
    Runs (nodeDelete c (some d) p) t fun _ t' ↦
      Rep t' (((setPrev st q m.self).write { block m with next := q }).release n.self) live := by
  cases hp with
  | null hq =>
    subst hq
    refine (h.swap.modifyNode _).seq fun _ t₁ h₁ ↦ ?_
    refine h₁.flush.seq fun _ t₂ h₂ ↦ ?_
    rw [setPrev, if_pos rfl]
    exact release_run h₂ hs
  | @node e k hq hb =>
    have hself : k.self = q := h.self q _ hb
    refine h.node_bind mem₃ ?_
    refine (h.swap.modifyNode _).seq fun _ t₁ h₁ ↦ ?_
    refine h₁.node_bind mem₁ ?_
    refine (h₁.third.modifyNode _).seq fun _ t₂ h₂ ↦ ?_
    refine h₂.flush.seq fun _ t₃ h₃ ↦ ?_
    refine h₃.flush.seq fun _ t₄ h₄ ↦ ?_
    rw [setPrev, if_neg hq, ← write_eq_alter h hb (fun b ↦ { b with prev := m.self }) rfl,
      ← hself]
    exact release_run h₄ hs

end MqssdModel.BPlusTree.Routines
