import MqssdModel.BPlusTree.Checking
import MqssdModel.BPlusTree.Descent
import MqssdModel.BPlusTree.Neighbours

namespace MqssdModel.BPlusTree.Sides

open Data.Rows Data.Chain Data.TotalRun Machine Caching Routines Removal Checking Views Shape
  Allocation Pending Splitting Descent InsertCascade Siblings RemoveCascade Rebalance Neighbours

variable {cf : Config} {t : Tree} {st : Store} {nc rc pc : Ptr} {n m pn : Node}
  {a b u₁ u₂ U₁ U₂ : Row} {us : List Row} {g x e q s p key nx : ℤ} {low moved : List ℤ}
  {cp : Content} {pk₁ pk₂ pv₁ pv₂ : List ℤ} {ropt lopt : List (Ptr × Node)}
  {lsib rsib : Option Ptr} {bg b₁ b₂ b₃ : Block}

section Pairs

variable (halloc : Alloc cf st (low ++ (nodes (a ++ .node g :: .sep x :: .node e :: b) ++
    offsets ((U₁ ++ .node p :: U₂) :: us))))
  (hmoved : ∀ v ∈ moved, (par st v).isSome) (hlow : moved ⊆ low)

include halloc hmoved hlow

variable (low moved) in
/-- Two neighbours become one: the store after `node_delete`. -/
theorem merged_pair (hcf : Sized cf) (hlinked : Linked (links st) invalidOffset
      (nodes (a ++ .node g :: .sep x :: .node e :: b)) invalidOffset) (hg : Same st g bg)
    (hnx : nx = (nodes b).headD invalidOffset) :
    Merged st (((setPrev (reparent st g moved) nx g).write { bg with next := nx }).release e)
      a g e b moved (Block.content bg) := by
  have hnd := halloc.nodup.of_append_left
  rw [nodes_pair] at hlinked halloc hnd
  have hprev : bg.prev = (nodes a).getLastD invalidOffset := by
    have hl := hlinked
    rw [nodes_append, nodes_cons_node] at hl
    have hl' := hl.middle
    rw [hg.links, Option.some.injEq] at hl'
    exact congrArg Prod.fst hl'
  refine merged_of_delete (show Block.self { bg with next := nx } = g from hg.self) hg.par hprev rfl hnx hlinked
    hnd.of_append_right.of_append_left (fun hi ↦ ?_) hmoved fun v hv hm ↦ ?_
  · refine halloc.ne_invalid hcf (List.mem_append_right _ ?_) rfl
    exact List.mem_append_left _ hi
  · exact List.disjoint_of_nodup_append hnd (hlow hm) (List.mem_append_left _ hv)

variable (low moved) in
/-- Something is moved between two neighbours, and the three nodes are written back. -/
theorem shifted_pair (hq : Same st q b₁) (hs : Same st s b₂) (hp : Same st p b₃)
    (hge : q = e ∧ s = g ∨ q = g ∧ s = e) :
    Shifted st ((((reparent st q moved).write b₁).write b₂).write b₃) q s p moved
      (Block.content b₁) (Block.content b₂) (Block.content b₃) ∧
    ∀ v ∈ moved, par ((((reparent st q moved).write b₁).write b₂).write b₃) v = some q := by
  have hnd := halloc.nodup.of_append_left
  have hrow : ∀ v, v = q ∨ v = s → v ∈ nodes (a ++ .node g :: .sep x :: .node e :: b) := by
    rcases hge with ⟨rfl, rfl⟩ | ⟨rfl, rfl⟩ <;> rintro v (rfl | rfl) <;> simp
  have hpm : p ∈ offsets ((U₁ ++ .node p :: U₂) :: us) := List.mem_append_left _ mem_nodes_middle
  have hne : ∀ v, v = q ∨ v = s → v ≠ p ∧ v ∉ moved := fun v hv ↦ by
    refine ⟨?_, fun hm ↦ ?_⟩
    · rintro rfl
      exact List.disjoint_of_nodup_append hnd.of_append_right (hrow v hv) hpm
    · exact List.disjoint_of_nodup_append hnd (hlow hm) (List.mem_append_left _ (hrow v hv))
  have hpout : p ∉ moved := fun hm ↦
    List.disjoint_of_nodup_append hnd (hlow hm) (List.mem_append_right _ hpm)
  have hqs : q ≠ s := by
    have hrow' := hnd.of_append_right.of_append_left
    simp only [nodes_append, nodes_cons_node, nodes_cons_sep, List.nodup_middle, List.nodup_cons,
      List.mem_append, List.mem_cons, not_or] at hrow'
    rcases hge with ⟨rfl, rfl⟩ | ⟨rfl, rfl⟩
    · exact Ne.symm hrow'.1.2.1
    · exact hrow'.1.2.1
  have hout := And.intro (hne q (Or.inl rfl)).2 (And.intro (hne s (Or.inr rfl)).2 hpout)
  exact ⟨shifted_of_writes hq hs hp hqs (hne q (Or.inl rfl)).1 (hne s (Or.inr rfl)).1 hmoved hout,
    fun v hv ↦ par_of_writes hq hs hp hmoved hout hv⟩

end Pairs

section Caches

theorem perm_left {x y z : Ptr × Node} :
    (z :: (ropt ++ [x, y])).Perm (y :: x :: z :: ropt) := by
  have hcomm : (ropt ++ [x, y]).Perm (x :: y :: ropt) := List.perm_append_comm
  exact (hcomm.cons z).trans (((List.Perm.swap y x ropt).cons z).trans
    ((List.Perm.swap y z _).trans ((List.Perm.swap x z _).cons y)))

theorem perm_right {x y z : Ptr × Node} :
    (z :: x :: (lopt ++ [y])).Perm (y :: x :: z :: lopt) :=
  (((List.perm_append_singleton y lopt).cons x).cons z).trans
    (((List.Perm.swap y x lopt).cons z).trans
      ((List.Perm.swap y z _).trans ((List.Perm.swap x z _).cons y)))

variable (hs : Spot cf st low u₁ q u₂ U₁ p U₂ us cp pk₁ pk₂ pv₁ pv₂ n key)

include hs

theorem away_low {live : List (Ptr × Node)} {v : ℤ}
    (hlive : ∀ x ∈ live, x.2.self ∈ nodes (u₁ ++ .node q :: u₂) ∨ x.2.self = p) (hv : v ∈ low) :
    Away live v := by
  have hd := List.disjoint_of_nodup_append hs.alloc.nodup.of_append_left
  intro x hx he
  rcases hlive x hx with hm | hm
  · exact hd (he ▸ hv) (List.mem_append_left _ hm)
  · refine hd (he ▸ hv) (List.mem_append_right _ (List.mem_append_left _ ?_))
    rw [hm]
    exact mem_nodes_middle

theorem neighbour_self {v : ℤ} {s : Option Ptr} {opt : List (Ptr × Node)}
    (hself : ∀ v bv, st.disk v = some bv → bv.self = v) (hn : Neighbour st v s opt)
    (hv : v = invalidOffset ∨ v ∈ nodes u₁ ++ nodes u₂) :
    ∀ x ∈ opt, x.2.self ∈ nodes (u₁ ++ .node q :: u₂) ∨ x.2.self = p := by
  cases hn with
  | null => exact fun x hx ↦ absurd hx List.not_mem_nil
  | @node _ m hi hb =>
    intro x hx
    rw [List.mem_singleton.mp hx]
    refine Or.inl ?_
    have hm := hv.resolve_left hi
    have hself : m.self = v := hself v _ hb
    dsimp only
    rw [hself]
    simp only [nodes_append, nodes_cons_node, List.mem_append, List.mem_cons] at hm ⊢
    tauto

/-- The left neighbour, when it has the same parent. -/
theorem exists_left (hpk : 0 < pk₁.length) : ∃ a' g x ks vs, u₁ = a' ++ [.node g, .sep x] ∧
    pk₁ = ks ++ [x] ∧ Pair cf st a' g x q u₂ U₁ p U₂ cp ks pk₂ vs pv₂ ∧ n.prev = g := by
  obtain ⟨a', g, x, ks, vs, rfl, rfl, rfl, hpair⟩ := pair_left hs.place hpk
  refine ⟨a', g, x, ks, vs, rfl, rfl, hpair, ?_⟩
  rw [hs.links_eq.1]
  simp

theorem exists_right (hpk : 0 < pk₂.length) : ∃ b' x e ks vs, u₂ = .sep x :: .node e :: b' ∧
    pk₂ = x :: ks ∧ Pair cf st u₁ q x e b' U₁ p U₂ cp pk₁ ks pv₁ vs ∧ n.next = e := by
  obtain ⟨b', x, e, ks, vs, rfl, rfl, rfl, hpair⟩ := pair_right hs.place hpk
  refine ⟨b', x, e, ks, vs, rfl, rfl, hpair, ?_⟩
  rw [hs.links_eq.2]
  simp

theorem prev_ne_invalid (hcf : Sized cf) (hpk : 0 < pk₁.length) : n.prev ≠ invalidOffset := by
  obtain ⟨a', g, x, -, -, rfl, -, -, hprev⟩ := exists_left hs hpk
  rw [hprev]
  exact hs.row_ne_invalid hcf (by simp)

theorem next_ne_invalid (hcf : Sized cf) (hpk : 0 < pk₂.length) : n.next ≠ invalidOffset := by
  obtain ⟨b', x, e, -, -, rfl, -, -, hnext⟩ := exists_right hs hpk
  rw [hnext]
  exact hs.row_ne_invalid hcf (by simp)

/-- The sibling that has been chosen is a child of the same parent, next to the node. -/
theorem checkSlot_run {live : List (Ptr × Node)} {s : Sibling} (hcf : Sized cf)
    (hp : st.disk p = some (block pn)) (hrep : Rep t st live) (hn : (nc, n) ∈ live)
    (hpn : (pc, pn) ∈ live) (hl : ∀ x ∈ lopt, x ∈ live) (hr : ∀ x ∈ ropt, x ∈ live)
    (hln : Neighbour st n.prev lsib lopt) (hrn : Neighbour st n.next rsib ropt)
    (hsel : s = .left ∧ 0 < pk₁.length ∨ s = .right ∧ 0 < pk₂.length) :
    Runs (checkSlot nc pc lsib rsib (pk₁.length - 1) s) t fun _ t' ↦ t' = t := by
  have hin := hs.inner_parent hp
  have hvals := hs.vals_parent hp
  have hlen := hs.place.left_length
  have hself : pn.sub ((pk₁.length : ℤ) - 1 + 1) = n.self := by
    rw [Int.sub_add_cancel, hlen, sub_eq hin hvals, hs.self]
  refine hrep.node_bind hn (hrep.node_bind hpn ?_)
  have hfirst : decide (0 ≤ (pk₁.length : ℤ) - 1 + 1 ∧ (pk₁.length : ℤ) - 1 + 1 < pn.children ∧
      pn.sub ((pk₁.length : ℤ) - 1 + 1) = n.self) = true := by
    rw [decide_eq_true_eq, hin.children]
    exact ⟨by omega, by omega, hself⟩
  refine (assert_run hfirst).seq ?_
  rintro _ _ rfl
  rcases hsel with ⟨rfl, hpk⟩ | ⟨rfl, hpk⟩
  · obtain ⟨a', g, x, ks, vs, rfl, rfl, hpair, hprev⟩ := exists_left hs hpk
    cases hln with
    | null hi => exact absurd hi (prev_ne_invalid hs hcf hpk)
    | @node lc m hi hm =>
      refine deref_bind (hrep.node_bind (hl _ List.mem_cons_self) (assert_run ?_))
      have hsub : pn.sub vs.length = g :=
        sub_eq hin ((congrArg Content.vals (hs.content_parent hp)).trans hpair.vals)
      have hidx : ((ks ++ [x]).length : ℤ) - 1 = vs.length := by
        rw [List.length_append, List.length_singleton, hpair.left_length]
        omega
      rw [decide_eq_true_eq, hidx, hsub, show m.self = n.prev from hrep.self _ _ hm, hprev]
      exact ⟨by omega, rfl⟩
  · obtain ⟨b', x, e, ks, vs, rfl, rfl, hpair, hnext⟩ := exists_right hs hpk
    cases hrn with
    | null hi => exact absurd hi (next_ne_invalid hs hcf hpk)
    | @node rc m hi hm =>
      refine deref_bind (hrep.node_bind (hr _ List.mem_cons_self) (assert_run ?_))
      have hcut : (block pn).vals = (pv₁ ++ [q]) ++ e :: vs := by
        rw [List.append_assoc]
        exact (congrArg Content.vals (hs.content_parent hp)).trans hpair.vals
      have hsub : pn.sub (pv₁ ++ [q]).length = e := sub_eq hin hcut
      have hidx : (pk₁.length : ℤ) - 1 + 2 = (pv₁ ++ [q]).length := by
        rw [List.length_append, List.length_singleton, hlen]
        omega
      rw [decide_eq_true_eq, hidx, hsub, show m.self = n.next from hrep.self _ _ hm, hnext,
        hin.children, List.length_append, List.length_singleton, ← hlen, List.length_cons]
      exact ⟨by omega, rfl⟩

end Caches

section Choose

variable {α : Type} {Q : α → Tree → Prop}
  (hs : Spot cf st low u₁ q u₂ U₁ p U₂ us cp pk₁ pk₂ pv₁ pv₂ n (n.key 0))

include hs

/-- What is done with a node that has got too small: its neighbours and its parent are read, and
one of the neighbours is chosen. -/
theorem choose_bind (hcf : Sized cf) (hrep : Rep t st [(nc, n)]) (hkey : 0 < keyField.cap cf n)
    {f : Option Ptr → Option Ptr → Ptr → Node → ℤ → Sibling → M α}
    (hleft : ∀ {t' lc rsib pc m pn ropt a' g x ks vs}, u₁ = a' ++ [.node g, .sep x] →
      pk₁ = ks ++ [x] → Pair cf st a' g x q u₂ U₁ p U₂ cp ks pk₂ vs pv₂ → n.prev = g →
      st.disk g = some (block m) → st.disk p = some (block pn) →
      parentKeyIndex pn (n.key 0) = ks.length → Neighbour st n.next rsib ropt →
      Rep t' st ((nc, n) :: (lc, m) :: (pc, pn) :: ropt) →
      Runs (f (some lc) rsib pc pn (n.key 0) .left) t' Q)
    (hright : ∀ {t' rc lsib pc m pn lopt b' x e ks vs}, u₂ = .sep x :: .node e :: b' →
      pk₂ = x :: ks → Pair cf st u₁ q x e b' U₁ p U₂ cp pk₁ ks pv₁ vs →
      st.disk e = some (block m) → st.disk p = some (block pn) →
      parentKeyIndex pn (n.key 0) + 1 = pk₁.length → Neighbour st n.prev lsib lopt →
      Rep t' st ((nc, n) :: (rc, m) :: (pc, pn) :: lopt) →
      Runs (f lsib (some rc) pc pn (n.key 0) .right) t' Q) :
    Runs (do
      let lsib ← nodeFetch n.prev
      let rsib ← nodeFetch n.next
      let parent ← deref (← nodeFetch n.parent)
      let p ← node parent
      let k ← load cf keyField nc 0
      let s ← siblingSelect lsib rsib parent (parentKeyIndex p k)
      checkSlot nc parent lsib rsib (parentKeyIndex p k) s
      f lsib rsib parent p k s) t Q := by
  refine hs.fetch_bind hcf hrep.self hrep ?_
  intro t₁ lsib rsib pc lopt ropt pn h₁ hln hrn hp
  have hidx := hs.index hp
  refine h₁.node_bind mem₁ (h₁.load_bind (n := n) (by simp) ⟨le_rfl, hkey⟩ ?_)
  rw [show keyField.get n 0 = n.key 0 from rfl, hidx]
  refine (hs.select_run hp h₁ mem₁ (by simp +contextual) (by simp +contextual) hln hrn
    (prev_ne_invalid hs hcf) (next_ne_invalid hs hcf)).seq ?_
  rintro s t₂ ⟨rfl, hsel⟩
  refine (checkSlot_run hs hcf hp h₁ (by simp) mem₁ (by simp +contextual) (by simp +contextual)
    hln hrn hsel).seq ?_
  rintro _ _ rfl
  rcases hsel with ⟨rfl, hpk⟩ | ⟨rfl, hpk⟩
  · obtain ⟨a', g, x, ks, vs, hu, rfl, hpair, hprev⟩ := exists_left hs hpk
    cases hln with
    | null hi => exact absurd hi (prev_ne_invalid hs hcf hpk)
    | @node lc m hi hm =>
      rw [hprev] at hm
      exact hleft hu rfl hpair hprev hm hp (hidx.trans (by simp)) hrn (h₁.perm perm_left)
  · obtain ⟨b', x, e, ks, vs, hu, hk, hpair, hnext⟩ := exists_right hs hpk
    cases hrn with
    | null hi => exact absurd hi (next_ne_invalid hs hcf hpk)
    | @node rc m hi hm =>
      rw [hnext] at hm
      exact hright hu hk hpair hm hp (by omega) hln (h₁.perm perm_right)

end Choose

section Delete

variable {α : Type} {Q : α → Tree → Prop} {n' : Node}
  (hs : Spot cf st low u₁ q (.sep x :: .node e :: b) U₁ p U₂ us cp pk₁ pk₂ pv₁ pv₂ n key)
  (hm : st.disk e = some (block m))

include hs hm

theorem next_right : m.next = (nodes b).headD invalidOffset := by
  have hl := hs.linked
  rw [nodes_append, nodes_cons_node, nodes_cons_sep, nodes_cons_node, List.append_cons] at hl
  have hm' := hl.middle
  rw [links, hm, Option.map_some, Option.some.injEq] at hm'
  exact congrArg Prod.snd hm'

/-- The node after the right neighbour is not in a cache. -/
theorem away_next (hself : ∀ v bv, st.disk v = some bv → bv.self = v) (hcf : Sized cf)
    (hln : Neighbour st n.prev lsib lopt) (hn' : n'.self = q) (hp : pn.self = p)
    (hb : m.next ∈ nodes b) : Away ((nc, n') :: (rc, m) :: (pc, pn) :: lopt) m.next := by
  have hnd := hs.nodup
  rw [nodes_cons_sep, nodes_cons_node] at hnd
  have hrow : m.next ∈ nodes (u₁ ++ .node q :: .sep x :: .node e :: b) := by simp [hb]
  simp only [List.nodup_middle, List.nodup_cons, List.mem_append, List.mem_cons, not_or] at hnd
  refine away_cons.mpr ⟨?_, away_cons.mpr ⟨?_, away_cons.mpr ⟨?_, ?_⟩⟩⟩
  · rw [hn']
    intro he
    exact hnd.1.2.2 (he ▸ hb)
  · rw [show m.self = e from hself e _ hm]
    intro he
    exact hnd.2.1.2 (he ▸ hb)
  · rw [hp]
    exact (hs.row_ne_parent hrow).symm
  · intro y hy
    cases hln with
    | null => exact absurd hy List.not_mem_nil
    | @node _ k hi hk =>
      rw [List.mem_singleton.mp hy]
      dsimp only
      rw [show k.self = n.prev from hself _ _ hk]
      exact hs.prev_ne hcf (Or.inr (by simp [hb]))

variable (moved) in
/-- The right neighbour is deleted, and the left one is given back. -/
theorem deleteRight_bind (hself : ∀ v bv, st.disk v = some bv → bv.self = v) (hcf : Sized cf)
    (hln : Neighbour st n.prev lsib lopt) (hn' : n'.self = q) (hp : pn.self = p)
    (hlow : moved ⊆ low)
    (hrep : Rep t (reparent st q moved) ((nc, n') :: (rc, m) :: (pc, pn) :: lopt)) {f : M α}
    (hf : ∀ t', Rep t' (((setPrev (reparent st q moved) m.next q).write
      { block n' with next := m.next }).release e) [(pc, pn)] → Runs f t' Q) :
    Runs (do
      let rrsib ← nodeFetch (← node rc).next
      nodeDelete rc (some nc) rrsib
      nodeFlush lsib
      f) t Q := by
  have hnx : m.next = invalidOffset ∨ m.next ∈ nodes b := by
    rw [next_right hs hm]
    exact headD_mem.symm
  have hlen := hln.length_le
  have hout {v : ℤ} (hv : v ∈ nodes (u₁ ++ .node q :: .sep x :: .node e :: b)) : v ∉ moved :=
    fun hm ↦ List.disjoint_of_nodup_append hs.alloc.nodup.of_append_left (hlow hm)
      (List.mem_append_left _ hv)
  have hfetch : m.next = invalidOffset ∨ Present (reparent st q moved) m.next ∧
      Away ((nc, n') :: (rc, m) :: (pc, pn) :: lopt) m.next := by
    refine hnx.imp_right fun hb ↦ ⟨?_, away_next hs hm hself hcf hln hn' hp hb⟩
    have hrow : m.next ∈ nodes (u₁ ++ .node q :: .sep x :: .node e :: b) := by simp [hb]
    refine ⟨hs.row_ne_invalid hcf hrow, ?_⟩
    rw [disk_reparent (hout hrow)]
    exact hs.present _ hrow
  have hself' : m.self = e := hself e _ hm
  refine hrep.node_bind mem₂ ?_
  refine (fetch_run hrep hfetch (by simp; omega)).seq ?_
  rintro rrsib t₁ ⟨rropt, hrr, h₁⟩
  have hperm : (rropt ++ (nc, n') :: (rc, m) :: (pc, pn) :: lopt).Perm
      ((rc, m) :: (nc, n') :: (rropt ++ (pc, pn) :: lopt)) :=
    List.perm_middle.trans ((List.perm_middle.cons _).trans (.swap _ _ _))
  have he : m.self ≠ invalidOffset := hself' ▸ hs.row_ne_invalid hcf (by simp)
  refine (nodeDelete_run (h₁.perm hperm) hrr he).seq fun _ t₂ h₂ ↦ ?_
  rw [hn', hself'] at h₂
  have hprev : Neighbour (((setPrev (reparent st q moved) m.next q).write
      { block n' with next := m.next }).release e) n.prev lsib lopt := by
    refine hln.congr fun hi ↦ ?_
    have hpm := hs.prev_mem.resolve_left hi
    have hq : n.prev ≠ n'.self := hn' ▸ hs.prev_ne hcf (Or.inr List.mem_cons_self)
    have hnext : n.prev ≠ m.next := by
      rcases hnx with hnx | hnx
      · rwa [hnx]
      · exact hs.prev_ne hcf (Or.inr (by simp [hnx]))
    refine (Function.update_of_ne hq _ _).trans ?_
    rw [disk_setPrev hnext, disk_reparent (hout (by simp [hpm]))]
  refine (flush_neighbour_run (h₂.perm (List.perm_append_singleton _ _).symm) hprev).seq
    fun _ t₃ h₃ ↦ hf t₃ h₃

end Delete

end MqssdModel.BPlusTree.Sides
