import MqssdModel.BPlusTree.Machine
import MqssdModel.Data.TotalRun

namespace MqssdModel.BPlusTree.Caching

open Data.Arrays Data.TotalRun Machine

/-- What a block says, without what is left over in its arrays. -/
structure Block where
  self : ℤ
  parent : ℤ
  prev : ℤ
  next : ℤ
  kind : NodeType
  count : ℤ
  keys : List ℤ
  vals : List ℤ

def keyCount (n : Node) : ℤ := if isLeaf n then n.children else n.children - 1

def block (n : Node) : Block where
  self := n.self
  parent := n.parent
  prev := n.prev
  next := n.next
  kind := n.type
  count := n.children
  keys := front n.key (keyCount n).toNat
  vals := front (if isLeaf n then n.data else n.sub) n.children.toNat

/-- The tree without its caches. -/
structure Store where
  disk : ℤ → Option Block
  root : ℤ
  level : ℤ
  fileSize : ℤ
  free : List ℤ

def Store.write (st : Store) (b : Block) : Store :=
  { st with disk := Function.update st.disk b.self (some b) }

/-- The offset that `new_node_append` hands out next. -/
def Store.fresh (st : Store) : ℤ := st.free.headD st.fileSize

def Store.alloc (cf : Config) (st : Store) : Store :=
  match st.free with
  | [] => { st with fileSize := st.fileSize + cf.blockSize }
  | _ :: rest => { st with free := rest }

def Store.release (st : Store) (offset : ℤ) : Store := { st with free := st.free ++ [offset] }

/-- The tree `t` has the contents `st`, and exactly the caches in `live` are in use, holding
the given nodes. -/
structure Rep (t : Tree) (st : Store) (live : List (Ptr × Node)) : Prop where
  file : ∀ o, (t.file o).map block = st.disk o
  self : ∀ o b, st.disk o = some b → b.self = o
  root : t.root = st.root
  level : t.level = st.level
  fileSize : t.fileSize = st.fileSize
  free : t.freeBlocks = st.free
  nodup : (live.map fun p ↦ p.1.slot).Nodup
  used : ∀ i, t.used i = true ↔ i ∈ live.map fun p ↦ p.1.slot
  turn : ∀ p ∈ live, t.turns p.1.slot = p.1.turn
  caches : ∀ p ∈ live, t.caches p.1.slot = p.2

/-- No live cache holds the block at `o`. -/
def Away (live : List (Ptr × Node)) (o : ℤ) : Prop := ∀ p ∈ live, p.2.self ≠ o

variable {t : Tree} {st : Store} {live live' : List (Ptr × Node)} {c d : Ptr} {n m : Node}
  {α : Type} {Q : α → Tree → Prop}

theorem mem₁ {x : Ptr × Node} : x ∈ x :: live := List.mem_cons_self

theorem mem₂ {x y : Ptr × Node} : y ∈ x :: y :: live := List.mem_cons_of_mem x mem₁

theorem mem₃ {x y z : Ptr × Node} : z ∈ x :: y :: z :: live := List.mem_cons_of_mem x mem₂

theorem mem₄ {x y z w : Ptr × Node} : w ∈ x :: y :: z :: w :: live := List.mem_cons_of_mem x mem₃

theorem Rep.perm (h : Rep t st live) (hp : live.Perm live') : Rep t st live' where
  file := h.file
  self := h.self
  root := h.root
  level := h.level
  fileSize := h.fileSize
  free := h.free
  nodup := (hp.map _).nodup_iff.mp h.nodup
  used e := (h.used e).trans (hp.map _).mem_iff
  turn p hm := h.turn p (hp.mem_iff.mpr hm)
  caches p hm := h.caches p (hp.mem_iff.mpr hm)

theorem Rep.swap {x y : Ptr × Node} (h : Rep t st (x :: y :: live)) : Rep t st (y :: x :: live) :=
  h.perm (.swap y x live)

/-- The third cache to the front. -/
theorem Rep.third {x y z : Ptr × Node} (h : Rep t st (x :: y :: z :: live)) :
    Rep t st (z :: x :: y :: live) :=
  h.perm ((List.Perm.swap z y live).cons x |>.trans (.swap z x _))

theorem Rep.fourth {x y z w : Ptr × Node} (h : Rep t st (x :: y :: z :: w :: live)) :
    Rep t st (w :: x :: y :: z :: live) :=
  (h.perm (((List.Perm.swap w z live).cons y).cons x)).third

theorem Rep.not_mem (h : Rep t st ((c, n) :: live)) : c.slot ∉ live.map fun p ↦ p.1.slot :=
  (List.nodup_cons.mp h.nodup).1

theorem Rep.ne (h : Rep t st ((c, n) :: (d, m) :: live)) : c ≠ d := by
  rintro rfl
  exact h.not_mem (List.mem_cons_self ..)

@[simp]
theorem away_nil {o : ℤ} : Away [] o := fun _ hp ↦ absurd hp List.not_mem_nil

@[simp]
theorem away_cons {o : ℤ} : Away ((c, n) :: live) o ↔ n.self ≠ o ∧ Away live o :=
  List.forall_mem_cons

section Caches

theorem Rep.node_bind (h : Rep t st live) (hm : (c, n) ∈ live) {g : Node → M α}
    (hg : Runs (g n) t Q) : Runs (node c >>= g) t Q := by
  have hc : t.caches c.slot = n := h.caches _ hm
  have hr : Runs (node c) t fun a t' ↦ a = n ∧ t' = t := by
    refine runs_get_bind ?_
    rw [if_pos (h.turn _ hm), hc]
    exact runs_pure ⟨rfl, rfl⟩
  refine hr.seq ?_
  rintro _ _ ⟨rfl, rfl⟩
  exact hg

theorem Rep.setNode (h : Rep t st ((c, n) :: live)) (n' : Node) :
    Runs (setNode c n') t fun _ t' ↦ Rep t' st ((c, n') :: live) := by
  refine runs_get_bind ?_
  rw [if_pos (h.turn _ mem₁)]
  refine runs_set ⟨h.file, h.self, h.root, h.level, h.fileSize, h.free, h.nodup, h.used, ?_, ?_⟩
  · exact List.forall_mem_cons.mpr (List.forall_mem_cons.mp h.turn)
  · refine List.forall_mem_cons.mpr ⟨Function.update_self _ _ _, fun p hp ↦ ?_⟩
    have hne : p.1.slot ≠ c.slot := fun he ↦ h.not_mem (he ▸ List.mem_map_of_mem hp)
    exact (Function.update_of_ne hne _ _).trans (h.caches p (List.mem_cons_of_mem _ hp))

theorem Rep.modifyNode (h : Rep t st ((c, n) :: live)) (f : Node → Node) :
    Runs (modifyNode c f) t fun _ t' ↦ Rep t' st ((c, f n) :: live) :=
  h.node_bind List.mem_cons_self (h.setNode (f n))

variable {cf : Config} {f : Field} {i v : ℤ}

theorem Rep.load_run {Q : ℤ → Tree → Prop} (h : Rep t st live) (hm : (c, n) ∈ live)
    (hi : 0 ≤ i ∧ i < f.cap cf n) (hq : Q (f.get n i) t) : Runs (load cf f c i) t Q :=
  h.node_bind hm (by rw [if_pos hi]; exact runs_pure hq)

theorem Rep.load_bind (h : Rep t st live) (hm : (c, n) ∈ live) (hi : 0 ≤ i ∧ i < f.cap cf n)
    {g : ℤ → M α} (hg : Runs (g (f.get n i)) t Q) : Runs (load cf f c i >>= g) t Q := by
  refine (h.load_run (Q := fun a t' ↦ a = f.get n i ∧ t' = t) hm hi ⟨rfl, rfl⟩).seq ?_
  rintro _ _ ⟨rfl, rfl⟩
  exact hg

theorem Rep.store (h : Rep t st ((c, n) :: live)) (hi : 0 ≤ i ∧ i < f.cap cf n) :
    Runs (store cf f c i v) t fun _ t' ↦
      Rep t' st ((c, f.set n (Function.update (f.get n) i v)) :: live) :=
  h.node_bind List.mem_cons_self (by rw [if_pos hi]; exact h.setNode _)

theorem Rep.memmove {j k : ℤ} (h : Rep t st ((c, n) :: live)) (hd : (d, m) ∈ (c, n) :: live)
    (hb : 0 ≤ k ∧ 0 ≤ i ∧ i + k ≤ f.cap cf n ∧ 0 ≤ j ∧ j + k ≤ f.cap cf m) :
    Runs (memmove cf f c i d j k) t fun _ t' ↦
      Rep t' st ((c, f.set n (blit (f.get n) i (f.get m) j k)) :: live) :=
  h.node_bind List.mem_cons_self
    (h.node_bind hd (by rw [if_pos hb]; exact h.setNode _))

theorem assert_run {p : Bool} (hp : p = true) : Runs (assert p) t fun _ t' ↦ t' = t := by
  unfold Machine.assert
  rw [if_pos hp]
  exact runs_pure rfl

theorem deref_bind {g : Ptr → M α} (hg : Runs (g c) t Q) : Runs (deref (some c) >>= g) t Q :=
  Runs.seq (P := fun a t' ↦ a = c ∧ t' = t) ⟨c, t, rfl, rfl, rfl⟩ (by
    rintro _ _ ⟨rfl, rfl⟩
    exact hg)

/-- With a cache left, `cache_refer` takes one that is not live. -/
theorem Rep.unused (h : Rep t st live) (hlen : live.length < 5) :
    ∃ i, unusedSlot t = some i ∧ i ∉ live.map fun p ↦ p.1.slot := by
  have hex : ∃ i : Slot, i ∉ live.map fun p ↦ p.1.slot := by
    by_contra hc
    push Not at hc
    have hle := (List.subperm_of_subset (List.nodup_finRange 5) fun i _ ↦ hc i).length_le
    simp only [List.length_finRange, List.length_map] at hle
    omega
  obtain ⟨i, hi⟩ := hex
  have hused : t.used i = false := by
    cases hu : t.used i with
    | false => rfl
    | true => exact absurd ((h.used i).mp hu) hi
  cases hf : unusedSlot t with
  | none =>
    have hnone := List.find?_eq_none.mp hf i (List.mem_finRange i)
    simp [hused] at hnone
  | some j =>
    refine ⟨j, rfl, fun hj ↦ ?_⟩
    have hp := List.find?_some hf
    simp [(h.used j).mpr hj] at hp

/-- Handing over a cache that is not live leaves the live ones as they are. -/
theorem Rep.handOver {i : Slot} (h : Rep t st live) (hi : i ∉ live.map fun p ↦ p.1.slot) :
    Rep (handOver t i) st live where
  file := h.file
  self := h.self
  root := h.root
  level := h.level
  fileSize := h.fileSize
  free := h.free
  nodup := h.nodup
  used := h.used
  turn p hp := by
    have hne : p.1.slot ≠ i := fun he ↦ hi (he ▸ List.mem_map_of_mem hp)
    exact (Function.update_of_ne hne _ _).trans (h.turn p hp)
  caches := h.caches

theorem Rep.cacheRefer (h : Rep t st live) (hlen : live.length < 5) :
    Runs cacheRefer t fun c t' ↦ ∃ n, Rep t' st ((c, n) :: live) := by
  obtain ⟨i, hi, hni⟩ := h.unused hlen
  have h' := h.handOver hni
  refine runs_get_bind ?_
  rw [hi]
  refine runs_modify_bind (runs_get_bind (runs_pure ⟨t.caches i, h'.file, h'.self, h'.root,
    h'.level, h'.fileSize, h'.free, List.nodup_cons.mpr ⟨hni, h.nodup⟩, fun e ↦ ?_, ?_, ?_⟩))
  · rw [List.map_cons, List.mem_cons, ← h.used e]
    by_cases he : e = i
    · simp [he, pointer]
    · simp [he, pointer]
  · exact List.forall_mem_cons.mpr ⟨rfl, h'.turn⟩
  · exact List.forall_mem_cons.mpr ⟨rfl, h'.caches⟩

theorem Rep.cacheDefer (h : Rep t st ((c, n) :: live)) :
    Runs (cacheDefer c) t fun _ t' ↦ Rep t' st live := by
  refine runs_get_bind ?_
  rw [if_pos (h.turn _ mem₁)]
  refine runs_set ⟨h.file, h.self, h.root, h.level, h.fileSize, h.free,
    (List.nodup_cons.mp h.nodup).2, fun e ↦ ?_, fun p hp ↦ ?_, fun p hp ↦ ?_⟩
  · by_cases he : e = c.slot
    · simpa [he] using h.not_mem
    · have hu := h.used e
      rw [List.map_cons, List.mem_cons] at hu
      simpa [Function.update_of_ne he, he] using hu
  · have hne : p.1.slot ≠ c.slot := fun he ↦ h.not_mem (he ▸ List.mem_map_of_mem hp)
    exact (Function.update_of_ne hne _ _).trans (h.turn p (List.mem_cons_of_mem _ hp))
  · exact h.caches p (List.mem_cons_of_mem _ hp)

theorem Rep.nodeNew (h : Rep t st live) (hlen : live.length < 5) :
    Runs nodeNew t fun c t' ↦ ∃ n, Rep t' st ((c, n) :: live) ∧ n.self = invalidOffset ∧
      n.parent = invalidOffset ∧ n.prev = invalidOffset ∧ n.next = invalidOffset ∧
      n.children = 0 := by
  refine (h.cacheRefer hlen).seq fun c t₁ ⟨_, h₁⟩ ↦ ?_
  refine (h₁.modifyNode _).seq fun _ t₂ h₂ ↦ ?_
  exact runs_pure ⟨_, h₂, rfl, rfl, rfl, rfl, rfl⟩

/-- A node as `leaf_new` and `non_leaf_new` return it. -/
structure New (kind : NodeType) (n : Node) : Prop where
  self : n.self = invalidOffset
  parent : n.parent = invalidOffset
  prev : n.prev = invalidOffset
  next : n.next = invalidOffset
  type : n.type = kind
  children : n.children = 0

theorem Rep.leafNew (h : Rep t st live) (hlen : live.length < 5) :
    Runs leafNew t fun c t' ↦ ∃ n, Rep t' st ((c, n) :: live) ∧ New .leaf n := by
  refine (h.nodeNew hlen).seq fun c t₁ ⟨n, h₁, h₂, h₃, h₄, h₅, h₆⟩ ↦ ?_
  refine (h₁.modifyNode _).seq fun _ t₂ hr ↦ ?_
  exact runs_pure ⟨_, hr, h₂, h₃, h₄, h₅, rfl, h₆⟩

theorem Rep.nonLeafNew (h : Rep t st live) (hlen : live.length < 5) :
    Runs nonLeafNew t fun c t' ↦ ∃ n, Rep t' st ((c, n) :: live) ∧ New .nonLeaf n := by
  refine (h.nodeNew hlen).seq fun c t₁ ⟨n, h₁, h₂, h₃, h₄, h₅, h₆⟩ ↦ ?_
  refine (h₁.modifyNode _).seq fun _ t₂ hr ↦ ?_
  exact runs_pure ⟨_, hr, h₂, h₃, h₄, h₅, rfl, h₆⟩

end Caches

section Blocks

variable {cf : Config} {o : ℤ} {b : Block}

theorem Rep.held_eq_false (h : Rep t st ((c, n) :: live)) (ha : Away live o) :
    held t c.slot o = false := by
  refine List.any_eq_false.mpr fun j _ ↦ ?_
  simp only [ne_eq, decide_not, Bool.and_eq_true, Bool.not_eq_eq_eq_not, Bool.not_true,
    decide_eq_false_iff_not, decide_eq_true_eq, not_and, and_imp]
  intro hj hu
  have hm := (h.used j).mp hu
  rw [List.map_cons, List.mem_cons] at hm
  obtain ⟨p, hp, rfl⟩ := List.mem_map.mp (hm.resolve_left hj)
  rw [h.caches p (List.mem_cons_of_mem _ hp)]
  exact ha p hp

theorem Rep.checkHeld_bind (h : Rep t st ((c, n) :: live)) (ha : Away live o) {g : Unit → M α}
    (hg : Runs (g ()) t Q) : Runs (checkHeld c o >>= g) t Q := by
  have hr : Runs (checkHeld c o) t fun _ t' ↦ t' = t := by
    refine runs_get_bind ?_
    rw [h.held_eq_false ha]
    exact runs_pure rfl
  refine hr.seq ?_
  rintro _ _ rfl
  exact hg

theorem Rep.pread (h : Rep t st ((c, n) :: live)) (hd : st.disk o = some b) (ha : Away live o) :
    Runs (pread c o) t fun _ t' ↦ ∃ n', block n' = b ∧ Rep t' st ((c, n') :: live) := by
  have hf := h.file o
  rw [hd] at hf
  obtain ⟨n', hn', hb⟩ := Option.map_eq_some_iff.mp hf
  refine h.checkHeld_bind ha (runs_get_bind ?_)
  rw [hn']
  exact (h.setNode n').mono fun _ _ h' ↦ ⟨n', hb, h'⟩

theorem Rep.fetch (h : Rep t st live) (ho : o ≠ invalidOffset) (hd : st.disk o = some b)
    (ha : Away live o) (hlen : live.length < 5) : Runs (nodeFetch o) t fun p t' ↦
      ∃ c n, p = some c ∧ block n = b ∧ Rep t' st ((c, n) :: live) := by
  unfold nodeFetch
  rw [if_neg ho]
  refine (h.cacheRefer hlen).seq fun c t₁ ⟨_, h₁⟩ ↦ ?_
  refine (h₁.pread hd ha).seq fun _ t₂ ⟨n, hb, h₂⟩ ↦ ?_
  exact runs_pure ⟨c, n, rfl, hb, h₂⟩

theorem fetch_invalid {g : Option Ptr → M α} (hg : Runs (g none) t Q) :
    Runs (nodeFetch invalidOffset >>= g) t Q := by
  have hr : Runs (nodeFetch invalidOffset) t fun p t' ↦ p = none ∧ t' = t := by
    unfold nodeFetch
    rw [if_pos rfl]
    exact runs_pure ⟨rfl, rfl⟩
  refine hr.seq ?_
  rintro _ _ ⟨rfl, rfl⟩
  exact hg

theorem Rep.flush (h : Rep t st ((c, n) :: live)) :
    Runs (nodeFlush (some c)) t fun _ t' ↦ Rep t' (st.write (block n)) live := by
  refine h.node_bind List.mem_cons_self ?_
  have hw : Runs (pwrite c n.self) t fun _ t' ↦ Rep t' (st.write (block n)) ((c, n) :: live) := by
    refine h.node_bind List.mem_cons_self (runs_modify ?_)
    refine ⟨fun o ↦ ?_, fun o b hb ↦ ?_, h.root, h.level, h.fileSize, h.free, h.nodup, h.used,
      h.turn, h.caches⟩
    · by_cases ho : o = n.self
      · subst ho
        simp [Store.write, block]
      · have hb : o ≠ (block n).self := ho
        simp only [Store.write, Function.update_of_ne ho, Function.update_of_ne hb]
        exact h.file o
    · by_cases ho : o = (block n).self
      · subst ho
        simp only [Store.write, Function.update_self, Option.some.injEq] at hb
        rw [← hb]
      · simp only [Store.write, Function.update_of_ne ho] at hb
        exact h.self o b hb
  exact hw.seq fun _ t₁ h₁ ↦ h₁.cacheDefer

theorem Rep.modify (h : Rep t st live) {f : Tree → Tree} (st' : Store)
    (hf : (f t).caches = t.caches ∧ (f t).used = t.used ∧ (f t).turns = t.turns ∧
      (f t).file = t.file)
    (hst : (f t).root = st'.root ∧ (f t).level = st'.level ∧ (f t).fileSize = st'.fileSize ∧
      (f t).freeBlocks = st'.free ∧ st'.disk = st.disk) :
    Runs (modify f : M PUnit) t fun _ t' ↦ Rep t' st' live := by
  obtain ⟨hcaches, hused, hturns, hfile⟩ := hf
  obtain ⟨hroot, hlevel, hsize, hfree, hdisk⟩ := hst
  refine runs_modify ⟨?_, ?_, hroot, hlevel, hsize, hfree, h.nodup, ?_, ?_, ?_⟩
  · rw [hfile, hdisk]
    exact h.file
  · rw [hdisk]
    exact h.self
  · rw [hused]
    exact h.used
  · rw [hturns]
    exact h.turn
  · rw [hcaches]
    exact h.caches

theorem Rep.append (h : Rep t st ((c, n) :: live)) (ha : Away live st.fresh) :
    Runs (newNodeAppend cf c) t fun a t' ↦ a = st.fresh ∧
      Rep t' (st.alloc cf) ((c, { n with self := st.fresh }) :: live) := by
  refine runs_get_bind ?_
  have hfree := h.free
  cases hst : st.free with
  | nil =>
    have hf : st.fresh = st.fileSize := by rw [Store.fresh, hst]; rfl
    rw [hf] at ha ⊢
    rw [hst] at hfree
    rw [hfree]
    dsimp only
    refine runs_get_bind ?_
    rw [h.fileSize]
    refine h.checkHeld_bind ha ?_
    refine (h.modifyNode _).seq fun _ t₁ h₁ ↦ ?_
    refine (h₁.modify (st.alloc cf) ⟨rfl, rfl, rfl, rfl⟩ ?_).seq fun _ t₂ h₂ ↦ ?_
    · simp [Store.alloc, hst, h₁.root, h₁.level, h₁.free]
    · exact h₂.node_bind List.mem_cons_self (runs_pure ⟨rfl, h₂⟩)
  | cons a rest =>
    have hf : st.fresh = a := by rw [Store.fresh, hst]; rfl
    rw [hf] at ha ⊢
    rw [hst] at hfree
    rw [hfree]
    dsimp only
    refine (h.modify (st.alloc cf) ⟨rfl, rfl, rfl, rfl⟩ ?_).seq fun _ t₁ h₁ ↦ ?_
    · simp [Store.alloc, hst, h.root, h.level, h.fileSize]
    · refine h₁.checkHeld_bind ha ?_
      refine (h₁.modifyNode _).seq fun _ t₂ h₂ ↦ ?_
      exact h₂.node_bind List.mem_cons_self (runs_pure ⟨rfl, h₂⟩)

end Blocks

end MqssdModel.BPlusTree.Caching
