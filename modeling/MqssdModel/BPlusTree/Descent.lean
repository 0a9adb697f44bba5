import MqssdModel.BPlusTree.Ordering
import MqssdModel.BPlusTree.Pending
import MqssdModel.BPlusTree.Search

namespace MqssdModel.BPlusTree.Descent

open Data.Arrays Data.Rows Data.TotalRun Machine Caching Routines Insertion Views Shape Allocation
  Ordering Pending Search Steps

/-- Only the caches have changed. -/
structure Still (t t' : Tree) : Prop where
  used : t'.used = t.used
  level : t'.level = t.level
  root : t'.root = t.root
  fileSize : t'.fileSize = t.fileSize
  freeBlocks : t'.freeBlocks = t.freeBlocks
  file : t'.file = t.file

/-- Since `t₀` only caches have changed; none is in use, and `c` points to one that `node_seek` has
filled with `n`. -/
structure Seen (t₀ t : Tree) (st : Store) (c : Ptr) (n : Node) : Prop where
  rep : Rep t st []
  still : Still t₀ t
  turn : t.turns c.slot = c.turn
  cache : t.caches c.slot = n

/-- The index of the child in which the search for `k` goes on. -/
def childIndex (n : Node) (k : ℤ) : ℤ :=
  let i := keyBinarySearch n k
  if i ≥ 0 then i + 1 else -i - 1

/-- The nodes that the search for `k` comes to. -/
inductive Visits (t : Tree) (k : ℤ) : ℤ → Prop
  | root : Visits t k t.root
  | child {o : ℤ} {n : Node} : Visits t k o → t.file o = some n → isLeaf n = false →
      Visits t k (n.sub (childIndex n k))

variable {cf : Config} {t₀ t t' : Tree} {st : Store} {c : Ptr} {n : Node} {o k : ℤ} {α : Type}
  {Q : α → Tree → Prop}

theorem still_refl : Still t t := ⟨rfl, rfl, rfl, rfl, rfl, rfl⟩

theorem Still.rep (h : Still t t') (hr : Rep t st []) : Rep t' st [] where
  file o := by rw [h.file, hr.file]
  self := hr.self
  root := h.root.trans hr.root
  level := h.level.trans hr.level
  fileSize := h.fileSize.trans hr.fileSize
  free := h.freeBlocks.trans hr.free
  nodup := List.nodup_nil
  used i := by rw [h.used, hr.used]
  turn _ hp := absurd hp List.not_mem_nil
  caches _ hp := absurd hp List.not_mem_nil

theorem Seen.fileSize (h : Seen t₀ t st c n) : st.fileSize = t₀.fileSize :=
  h.rep.fileSize.symm.trans h.still.fileSize

theorem Seen.node_bind (h : Seen t₀ t st c n) {g : Node → M α} (hg : Runs (g n) t Q) :
    Runs (node c >>= g) t Q := by
  have hr : Runs (node c) t fun a t' ↦ a = n ∧ t' = t := by
    refine runs_get_bind ?_
    rw [if_pos h.turn, h.cache]
    exact runs_pure ⟨rfl, rfl⟩
  refine hr.seq ?_
  rintro _ _ ⟨rfl, rfl⟩
  exact hg

theorem Seen.load_run {f : Field} {i : ℤ} {Q : ℤ → Tree → Prop} (h : Seen t₀ t st c n)
    (hi : 0 ≤ i ∧ i < f.cap cf n) (hq : Q (f.get n i) t) : Runs (load cf f c i) t Q := by
  refine h.node_bind ?_
  rw [if_pos hi]
  exact runs_pure hq

/-- The leaf is going to change: its cache is taken. -/
theorem Seen.claim (h : Seen t₀ t st c n) {g : PUnit → M α}
    (hg : ∀ t', Rep t' st [(c, n)] → Runs (g ⟨⟩) t' Q) :
    Runs ((modify fun t ↦ { t with used := Function.update t.used c.slot true }) >>= g) t Q := by
  have hr := h.rep
  refine runs_modify_bind (hg _ ⟨hr.file, hr.self, hr.root, hr.level, hr.fileSize, hr.free,
    List.nodup_singleton _, fun i ↦ ?_, fun p hp ↦ ?_, fun p hp ↦ ?_⟩)
  · have hu := hr.used i
    by_cases hi : i = c.slot
    · simp [hi]
    · simpa [hi] using hu
  · rw [List.mem_singleton.mp hp]
    exact h.turn
  · rw [List.mem_singleton.mp hp]
    exact h.cache

theorem seek_run {b : Block} (hs : Still t₀ t) (h : Rep t st []) (ho : o ≠ invalidOffset)
    (hd : st.disk o = some b) : Runs (nodeSeek o) t fun p t' ↦
      ∃ c n, p = some c ∧ t₀.file o = some n ∧ block n = b ∧ Seen t₀ t' st c n := by
  obtain ⟨i, hi, hni⟩ := h.unused (Nat.succ_pos 4)
  have hf := h.file o
  rw [hd] at hf
  obtain ⟨n, hn, hb⟩ := Option.map_eq_some_iff.mp hf
  have h' := h.handOver hni
  unfold nodeSeek
  rw [if_neg ho]
  refine runs_get_bind ?_
  rw [hi]
  refine runs_modify_bind (runs_get_bind ?_)
  have hheld : held (handOver t i) i o = false := by
    refine List.any_eq_false.mpr fun j _ ↦ ?_
    have hj : t.used j ≠ true := fun hu ↦ absurd ((h.used j).mp hu) List.not_mem_nil
    have hj' : (handOver t i).used j = false := by simpa [handOver] using hj
    simp [hj']
  have hread : Runs (pread (pointer (handOver t i) i) o) (handOver t i) fun _ t' ↦
      Seen t₀ t' st (pointer (handOver t i) i) n := by
    have hcheck : Runs (checkHeld (pointer (handOver t i) i) o) (handOver t i)
        fun _ t' ↦ t' = handOver t i := by
      refine runs_get_bind ?_
      rw [show (pointer (handOver t i) i).slot = i from rfl, hheld]
      exact runs_pure rfl
    refine hcheck.seq ?_
    rintro _ _ rfl
    refine runs_get_bind ?_
    rw [show (handOver t i).file o = some n from hn]
    refine runs_get_bind ?_
    have hturn : (handOver t i).turns (pointer (handOver t i) i).slot =
        (pointer (handOver t i) i).turn := rfl
    rw [if_pos hturn]
    refine runs_set ⟨⟨h'.file, h'.self, h'.root, h'.level, h'.fileSize, h'.free, h'.nodup, h'.used,
      h'.turn, fun p hp ↦ absurd hp List.not_mem_nil⟩, ⟨hs.used, hs.level, hs.root, hs.fileSize,
      hs.freeBlocks, hs.file⟩, rfl, Function.update_self _ _ _⟩
  have hfile : t₀.file o = some n := hs.file ▸ hn
  exact hread.seq fun _ t' hs ↦ runs_pure ⟨_, n, rfl, hfile, hb, hs⟩

section Child

variable {ks₁ ks₂ vs₁ vs₂ : List ℤ} {v : ℤ} {m : ℕ} (hn : Inner n m)
  (hkeys : (block n).keys = ks₁ ++ ks₂) (hs : (ks₁ ++ ks₂).Pairwise (· < ·))
  (h₁ : ∀ x ∈ ks₁, x ≤ k) (h₂ : ∀ x ∈ ks₂, k < x)

include hn

theorem sub_eq (hvals : (block n).vals = vs₁ ++ v :: vs₂) : n.sub vs₁.length = v := by
  have hfront : front n.sub (m + 1) = vs₁ ++ v :: vs₂ := by
    rw [hn.block_eq] at hvals
    exact hvals
  have hget : (front n.sub (m + 1))[vs₁.length]? = some v := by
    rw [hfront]
    simp
  exact (getElem?_front hget).2

include hkeys hs h₁ h₂

/-- The search goes on behind the keys that are at most `k`. -/
theorem childIndex_eq : childIndex n k = ks₁.length := by
  have hcount : 0 ≤ keyCount n := by
    rw [keyCount, isLeaf, hn.type, hn.children]
    simp
  unfold childIndex
  rcases search_le hcount hkeys hs h₁ h₂ with ⟨he, hpos⟩ | he
  · rw [he]
    dsimp only
    rw [if_pos (by omega)]
    omega
  · rw [he]
    dsimp only
    rw [if_neg (by omega)]
    omega

theorem childFor_run {Q : ℤ → Tree → Prop} (h : Seen t₀ t st c n) (hm : m < cf.maxOrder)
    (hvals : (block n).vals = vs₁ ++ v :: vs₂) (hlen : ks₁.length = vs₁.length) (hq : Q v t) :
    Runs (childFor cf c k) t Q := by
  have hle : ks₁.length ≤ m := by
    have hl := congrArg List.length hkeys
    rw [hn.block_eq, length_front, List.length_append] at hl
    omega
  have hload : Runs (load cf subField c (childIndex n k)) t Q := by
    rw [childIndex_eq hn hkeys hs h₁ h₂]
    refine h.load_run ⟨by omega, by change (ks₁.length : ℤ) < cf.maxOrder; omega⟩ ?_
    rw [hlen, show subField.get n vs₁.length = v from sub_eq hn hvals]
    exact hq
  refine h.node_bind ?_
  by_cases hi : keyBinarySearch n k ≥ 0
  · rw [if_pos hi]
    rwa [childIndex, if_pos hi] at hload
  · rw [if_neg hi]
    rwa [childIndex, if_neg hi] at hload

end Child

variable {w : Row} {us : List Row} {atLeaf : Ptr → M ℤ} {atEnd : M ℤ} {R : ℤ → Tree → Prop}

/-- The place of `k` among the children of a node. -/
theorem exists_child (hok : InnerOk cf w (Block.content (block n)))
    (hs : (block n).keys.Pairwise (· < ·)) (k : ℤ) : ∃ ks₁ ks₂ vs₁ v vs₂,
      (block n).keys = ks₁ ++ ks₂ ∧ (block n).vals = vs₁ ++ v :: vs₂ ∧
      ks₁.length = vs₁.length ∧ ks₂.length = vs₂.length ∧
      (∀ x ∈ ks₁, x ≤ k) ∧ ∀ x ∈ ks₂, k < x := by
  obtain ⟨ks₁, ks₂, hks, h₁, h₂⟩ := exists_cut hs k
  have hlen : (block n).vals.length = (block n).keys.length + 1 := hok.keys
  rw [hks, List.length_append] at hlen
  refine ⟨ks₁, ks₂, (block n).vals.take ks₁.length, (block n).vals.get ⟨ks₁.length, by omega⟩,
    (block n).vals.drop (ks₁.length + 1), hks, ?_, ?_, ?_, h₁, h₂⟩
  · rw [List.get_eq_getElem, List.getElem_cons_drop, List.take_append_drop]
  · rw [List.length_take]
    omega
  · rw [List.length_drop]
    omega

/-- What is known where the search for `k` ends is known of the whole search. -/
theorem descend_run (hup : Upper cf st w us) (hs : (seps w).Pairwise (· < ·))
    (hinv : ∀ o ∈ nodes w ++ offsets us, o ≠ invalidOffset) (hroot : (st.disk st.root).isSome)
    {f : ℕ} (hleaf : ∀ {a b o t c n}, w = a ++ .node o :: b → Focus k a b → Seen t₀ t st c n →
      Visits t₀ k o → t₀.file o = some n → Runs (descend cf k atLeaf atEnd (f + 1) (some c)) t R)
    (h : Rep t₀ st []) :
    Runs (do
      let start ← nodeSeek st.root
      descend cf k atLeaf atEnd (us.length + f + 1) start) t₀ R := by
  induction us generalizing w f with
  | nil =>
    obtain ⟨rfl, -⟩ := hup
    obtain ⟨b, hb⟩ := Option.isSome_iff_exists.mp hroot
    refine (seek_run still_refl h (hinv _ (by simp)) hb).seq ?_
    rintro _ t₁ ⟨c, n, rfl, hfile, rfl, h₁⟩
    have hvisit : Visits t₀ k st.root := h.root ▸ Visits.root
    have hstart := hleaf (List.nil_append _).symm focus_nil h₁ hvisit hfile
    rwa [List.length_nil, Nat.zero_add]
  | cons u us ih =>
    obtain ⟨rfl, hin, -, hup⟩ := hup
    have hlen : (u :: us).length + f + 1 = us.length + (f + 1) + 1 := by
      rw [List.length_cons]
      omega
    rw [hlen]
    refine ih hup (hs.sublist seps_sublist_expand)
      (fun o ho ↦ hinv o (List.mem_append_right _ ho)) ?_
    intro a b o t c n hu hfocus hseen hvisit hfile
    subst hu
    have hb : st.disk o = some (block n) := by rw [← h.file, hfile, Option.map_some]
    have hc : content st o = some (Block.content (block n)) := by
      rw [content, hb]
      rfl
    obtain ⟨co, hc', hok, hpar⟩ := hin o mem_nodes_middle
    obtain rfl := Option.some.inj (hc'.symm.trans hc)
    have hrow : row st o = weave (block n).keys (block n).vals := row_eq hc
    have hlen : (block n).vals.length = (block n).keys.length + 1 := hok.keys
    have hsk : (block n).keys.Pairwise (· < ·) := by
      have hs' := hs
      simp only [expand_append, expand_cons_node, seps_append, hrow] at hs'
      rw [seps_weave hlen] at hs'
      exact (List.pairwise_append.mp (List.pairwise_append.mp hs').2.1).1
    obtain ⟨ks₁, ks₂, vs₁, v, vs₂, hks, hvs, hl, hr, h₁, h₂⟩ := exists_child hok hsk k
    have hv : v ∈ (block n).vals := by rw [hvs]; simp
    obtain ⟨bv, hbv, -⟩ := Option.map_eq_some_iff.mp (hpar v hv)
    have hvinv : v ≠ invalidOffset := by
      refine hinv v (List.mem_append_left _ ?_)
      exact (mem_nodes_expand hin).mpr ⟨o, mem_nodes_middle, _, hc, hv⟩
    have hcap : ((block n).vals.length : ℤ) ≤ cf.maxOrder := hok.cap
    have hinner := inner_of_ok hok
    unfold descend
    refine hseen.node_bind ?_
    rw [if_neg (by simp [isLeaf, hinner.type])]
    refine (childFor_run hinner hks (hks ▸ hsk) h₁ h₂ hseen (by omega) hvs hl
      (Q := fun x t' ↦ x = v ∧ t' = t) ⟨rfl, rfl⟩).seq ?_
    rintro v _ ⟨rfl, rfl⟩
    refine (seek_run hseen.still hseen.rep hvinv hbv).seq ?_
    rintro _ t₂ ⟨c', n', rfl, hfile', rfl, h₂'⟩
    have hchild : Visits t₀ k v := by
      have hnext := hvisit.child hfile (by simp [isLeaf, hinner.type])
      rwa [childIndex_eq hinner hks (hks ▸ hsk) h₁ h₂, hl, sub_eq hinner hvs] at hnext
    refine hleaf ?_ (hfocus.below (e := row st) h₁ h₂ hl hr) h₂' hchild hfile'
    rw [expand_append, expand_cons_node, hrow, hks, hvs, weave_focus hl hr]
    simp

end MqssdModel.BPlusTree.Descent
