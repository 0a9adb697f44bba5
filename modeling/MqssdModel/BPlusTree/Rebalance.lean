import MqssdModel.BPlusTree.RemoveCascade
import MqssdModel.BPlusTree.Splitting

namespace MqssdModel.BPlusTree.Rebalance

open Data.Rows Data.Chain Data.TotalRun Machine Caching Routines Views Shape Allocation Pending Splitting
  InsertCascade Siblings RemoveCascade

variable {cf : Config} {t : Tree} {st : Store} {a b u₁ u₂ w : Row} {us : List Row}
  {g e p q s nx : ℤ} {moved low : List ℤ} {bg b₁ b₂ b₃ : Block}

/-- The block says of its place in the tree what the one on disk says. -/
structure Same (st : Store) (o : ℤ) (b : Block) : Prop where
  self : b.self = o
  par : par st o = some b.parent
  links : links st o = some (b.prev, b.next)

theorem same_of_block {n m : Node} (hd : st.disk q = some (block n)) (hself : n.self = q)
    (hb : block m = { block n with
      count := (block m).count
      keys := (block m).keys
      vals := (block m).vals }) : Same st q (block m) := by
  refine ⟨(congrArg Block.self hb).trans hself, ?_, ?_⟩
  · rw [par, hd]
    exact congrArg some (congrArg Block.parent hb).symm
  · rw [links, hd]
    exact congrArg some (Prod.ext (congrArg Block.prev hb).symm (congrArg Block.next hb).symm)

theorem reparent_congr {v : ℤ} (hm : ∀ v ∈ moved, (par st v).isSome) :
    par (reparent st g moved) v = if v ∈ moved then some g else par st v := by
  rw [par_reparent]
  by_cases hv : v ∈ moved
  · obtain ⟨x, hx⟩ := Option.isSome_iff_exists.mp (hm v hv)
    rw [if_pos hv, if_pos hv, hx]
    rfl
  · rw [if_neg hv, if_neg hv]

section Merge

/-- The store after a merge: the children have a new parent, the node after `e` and `g` are linked
to each other, and `e` is free. -/
theorem merged_of_delete (hself : bg.self = g) (hpar : par st g = some bg.parent)
    (hprev : bg.prev = (nodes a).getLastD invalidOffset) (hnext : bg.next = nx)
    (hnx : nx = (nodes b).headD invalidOffset)
    (hlinked : Linked (links st) invalidOffset (nodes (a ++ .node g :: .node e :: b)) invalidOffset)
    (hnd : (nodes (a ++ .node g :: .node e :: b)).Nodup)
    (hinv : invalidOffset ∉ nodes (a ++ .node g :: .node e :: b))
    (hmoved : ∀ v ∈ moved, (par st v).isSome)
    (hout : ∀ v ∈ nodes (a ++ .node g :: .node e :: b), v ∉ moved) :
    Merged st (((setPrev (reparent st g moved) nx g).write bg).release e) a g e b moved
      (Block.content bg) := by
  simp only [nodes_append, nodes_cons_node] at hlinked hnd hinv hout
  have hg : g ∉ moved := hout g (by simp)
  refine ⟨fun v hv ↦ ?_, ?_, fun v hv ↦ ?_, fun v hv ↦ ?_, fun v hv hi ↦ ?_, ?_,
    fun v hv hm hi ↦ ?_, ?_⟩
  · rw [content_release, content_write, hself, if_neg hv, content_setPrev, content_reparent]
  · rw [content_release, content_write, if_pos hself.symm]
  · rw [par_release, par_write, hself, par_setPrev, reparent_congr hmoved, if_neg hv]
    by_cases hvg : v = g
    · rw [if_pos hvg, hvg, hpar]
    · rw [if_neg hvg]
  · have hvg : v ≠ g := fun he ↦ hg (he ▸ hv)
    rw [par_release, par_write, hself, if_neg hvg, par_setPrev, reparent_congr hmoved, if_pos hv]
  · simp only [nodes_append, nodes_cons_node, List.mem_append, List.mem_cons, not_or] at hv
    rw [links_release, links_write, hself, if_neg hv.2.1, links_setPrev hi, links_reparent,
      if_neg (hnx ▸ ne_headD hv.2.2.2 hi)]
  · have hgnx : ∀ v ∈ nodes a, v ≠ nx := fun v hv ↦ by
      refine hnx ▸ ne_headD (fun hm ↦ ?_) fun he ↦ hinv (he ▸ by simp [hv])
      exact List.disjoint_of_nodup_append hnd hv (by simp [hm])
    refine hlinked.delete (e := invalidOffset) hnd (fun v hv ↦ ?_) ?_ fun v hv ↦ ?_
    · have hvg : v ≠ g := fun he ↦ List.disjoint_of_nodup_append hnd hv (he ▸ by simp)
      have hvi : v ≠ invalidOffset := fun he ↦ hinv (he ▸ by simp [hv])
      rw [links_release, links_write, hself, if_neg hvg, links_setPrev hvi, links_reparent,
        if_neg (hgnx v hv)]
    · rw [links_release, links_write, if_pos hself.symm, hprev, hnext, hnx]
    · have hnd' := (List.nodup_cons.mp hnd.of_append_right).1
      have hvg : v ≠ g := fun he ↦ hnd' (he ▸ List.mem_cons_of_mem _ hv)
      have hvi : v ≠ invalidOffset := fun he ↦ hinv (he ▸ by simp [hv])
      rw [links_release, links_write, hself, if_neg hvg, links_setPrev hvi, links_reparent, hnx]
  · simp only [nodes_append, nodes_cons_node, List.mem_append, List.mem_cons, not_or] at hv
    have hvg : v ≠ bg.self := hself ▸ hv.2.1
    have hw : (((setPrev (reparent st g moved) nx g).write bg).release e).disk v =
        (setPrev (reparent st g moved) nx g).disk v := Function.update_of_ne hvg _ _
    rw [hw, disk_setPrev (hnx ▸ ne_headD hv.2.2.2 hi), disk_reparent hm]
  · have hh : header (setPrev (reparent st g moved) nx g) = header st := by simp
    simp only [header, Store.release, Store.write, Header.mk.injEq] at hh ⊢
    exact ⟨hh.1, hh.2.1, hh.2.2.1, by rw [hh.2.2.2]⟩

end Merge

section Shift

theorem shifted_symm {st' : Store} {cg ce cp : Content}
    (h : Shifted st st' g e p moved cg ce cp) : Shifted st st' e g p moved ce cg cp :=
  ⟨fun v hv hv' hp ↦ h.content v hv' hv hp, h.right, h.left, h.parent, h.par, h.links,
    fun v hv hv' hp hm ↦ h.disk v hv' hv hp hm, h.header⟩

variable (hq : Same st q b₁) (hs : Same st s b₂) (hp : Same st p b₃)

include hq hs hp

/-- The store after a shift: the children have a new parent, and the two neighbours and their
parent have been written. -/
theorem shifted_of_writes (hqs : q ≠ s) (hqp : q ≠ p) (hsp : s ≠ p)
    (hmoved : ∀ v ∈ moved, (par st v).isSome) (hout : q ∉ moved ∧ s ∉ moved ∧ p ∉ moved) :
    Shifted st ((((reparent st q moved).write b₁).write b₂).write b₃) q s p moved
      (Block.content b₁) (Block.content b₂) (Block.content b₃) := by
  refine ⟨fun v hv hv' hvp ↦ ?_, ?_, ?_, ?_, fun v hv ↦ ?_, fun v ↦ ?_, fun v hv hv' hvp hm ↦ ?_,
    by simp⟩
  · rw [content_write, hp.self, if_neg hvp, content_write, hs.self, if_neg hv', content_write,
      hq.self, if_neg hv, content_reparent]
  · rw [content_write, hp.self, if_neg hqp, content_write, hs.self, if_neg hqs, content_write,
      if_pos hq.self.symm]
  · rw [content_write, hp.self, if_neg hsp, content_write, if_pos hs.self.symm]
  · rw [content_write, if_pos hp.self.symm]
  · rw [par_write, hp.self, par_write, hs.self, par_write, hq.self, reparent_congr hmoved,
      if_neg hv]
    split_ifs with h₁ h₂ h₃
    · rw [h₁, hp.par]
    · rw [h₂, hs.par]
    · rw [h₃, hq.par]
    · rfl
  · rw [links_write, hp.self, links_write, hs.self, links_write, hq.self, links_reparent]
    split_ifs with h₁ h₂ h₃
    · rw [h₁, hp.links]
    · rw [h₂, hs.links]
    · rw [h₃, hq.links]
    · rfl
  · have h₁ : v ≠ b₁.self := hq.self ▸ hv
    have h₂ : v ≠ b₂.self := hs.self ▸ hv'
    have h₃ : v ≠ b₃.self := hp.self ▸ hvp
    simp only [Store.write, Function.update_of_ne h₁, Function.update_of_ne h₂,
      Function.update_of_ne h₃, disk_reparent hm]

/-- The children that have moved, and those that have not. -/
theorem par_of_writes (hmoved : ∀ v ∈ moved, (par st v).isSome)
    (hout : q ∉ moved ∧ s ∉ moved ∧ p ∉ moved) {v : ℤ} (hv : v ∈ moved) :
    par ((((reparent st q moved).write b₁).write b₂).write b₃) v = some q := by
  have h₁ : v ≠ q := fun he ↦ hout.1 (he ▸ hv)
  have h₂ : v ≠ s := fun he ↦ hout.2.1 (he ▸ hv)
  have h₃ : v ≠ p := fun he ↦ hout.2.2 (he ▸ hv)
  rw [par_write, hp.self, if_neg h₃, par_write, hs.self, if_neg h₂, par_write, hq.self, if_neg h₁,
    reparent_congr hmoved, if_pos hv]

end Shift

section Flush

variable {nc sc pc : Ptr} {n m w : Node} {sib : Option Ptr} {opt : List (Ptr × Node)} {v : ℤ}
  (hrep : Rep t st ((nc, n) :: (sc, m) :: (pc, w) :: opt)) (hn : Neighbour st v sib opt)
  (hvn : v ≠ n.self)

include hrep hn hvn

/-- The caches are written back; the neighbour that took no part has not changed. -/
theorem flush_left_run (hvm : v ≠ m.self) :
    Runs (do
      nodeFlush (some nc)
      nodeFlush (some sc)
      nodeFlush sib
      nodeFlush (some pc)) t fun _ t' ↦
        Rep t' (((st.write (block n)).write (block m)).write (block w)) [] := by
  refine hrep.flush.seq fun _ t₁ h₁ ↦ ?_
  refine h₁.flush.seq fun _ t₂ h₂ ↦ ?_
  have hn' : Neighbour ((st.write (block n)).write (block m)) v sib opt :=
    hn.congr fun _ ↦ disk_pending hvn hvm
  refine (flush_neighbour_run (h₂.perm (List.perm_append_singleton _ _).symm) hn').seq
    fun _ t₃ h₃ ↦ ?_
  exact h₃.flush

theorem flush_right_run :
    Runs (do
      nodeFlush (some nc)
      nodeFlush sib
      nodeFlush (some sc)
      nodeFlush (some pc)) t fun _ t' ↦
        Rep t' (((st.write (block n)).write (block m)).write (block w)) [] := by
  refine hrep.flush.seq fun _ t₁ h₁ ↦ ?_
  have hn' : Neighbour (st.write (block n)) v sib opt := hn.congr fun _ ↦ Function.update_of_ne hvn _ _
  have hperm : ([(sc, m), (pc, w)] ++ opt).Perm (opt ++ [(sc, m), (pc, w)]) :=
    List.perm_append_comm
  refine (flush_neighbour_run (h₁.perm hperm) hn').seq fun _ t₂ h₂ ↦ ?_
  refine h₂.flush.seq fun _ t₃ h₃ ↦ ?_
  exact h₃.flush

end Flush

section Simple

/-- A node loses a child and keeps enough of them. -/
theorem grown_of_simple (hlevel : Level cf st low w (u₁ ++ .node q :: u₂) us)
    (hq : Same st q b₁)
    (hw : w = expand (row st) u₁ ++ (weave b₁.keys b₁.vals ++ expand (row st) u₂))
    (hok : InnerOk cf (u₁ ++ .node q :: u₂) (Block.content b₁))
    (hpar : ∀ v ∈ b₁.vals, par st v = some q) (hrep : Rep t (st.write b₁) []) :
    Grown cf st low w (st.level - ((u₁ ++ .node q :: u₂) :: us).length) t := by
  have hnd := hlevel.alloc.nodup.of_append_left.of_append_right
  have hparall (v : ℤ) : par (st.write b₁) v = par st v := by
    rw [par_write, hq.self]
    split_ifs with h
    · rw [h, hq.par]
    · rfl
  have hlinks (v : ℤ) : links (st.write b₁) v = links st v := by
    rw [links_write, hq.self]
    split_ifs with h
    · rw [h, hq.links]
    · rfl
  have hcont {v : ℤ} (hv : v ≠ q) : content (st.write b₁) v = content st v := by
    rw [content_write, hq.self, if_neg hv]
  have hcq : content (st.write b₁) q = some (Block.content b₁) := by
    rw [content_write, if_pos hq.self.symm]
  have hside {v : ℤ} (hv : v ∈ nodes u₁ ++ nodes u₂) : v ≠ q := by
    have hnd' := hnd.of_append_left
    rw [nodes_append, nodes_cons_node, List.nodup_middle, List.nodup_cons] at hnd'
    exact fun he ↦ hnd'.1 (he ▸ hv)
  have hup : Upper cf (st.write b₁) (u₁ ++ .node q :: u₂) us := by
    refine hlevel.upper.congr rfl (fun v hv ↦ ?_) fun v _ ↦ hparall v
    have hvq : v ≠ b₁.self := by
      rw [hq.self]
      rintro rfl
      exact hlevel.row_notMem mem_nodes_middle hv
    exact Function.update_of_ne hvq _ _
  have hup' := Upper.rebuild [.node q] [.node q] hlevel.inner (List.cons_ne_nil _ _)
    (fun v hv ↦ hcont (hside hv)) (fun v _ ↦ hparall v) (fun v hv ↦ ?_)
    (hlevel.linked.congr fun v _ ↦ hlinks v) hup
  · rw [expand_cons_node, row_eq hcq, expand_nil, List.append_nil] at hup'
    refine ⟨_, _, hrep, hw ▸ hup', hlevel.alloc.of_header header_write,
      ⟨fun v hv ↦ hcont ?_, fun v _ ↦ hlinks v, fun v _ _ ↦ hparall v,
        longer_of_eq _ rfl⟩, rfl⟩
    rintro rfl
    exact (hlevel.low_notMem hv).1 mem_nodes_middle
  · obtain rfl : v = q := by simpa using hv
    exact ⟨_, hcq, hok, fun v hv ↦ (hparall v).trans (hpar v hv)⟩

end Simple

end MqssdModel.BPlusTree.Rebalance
