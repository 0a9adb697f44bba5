import MqssdModel.BPlusTree.Dump
import MqssdModel.BPlusTree.RangeRun

namespace MqssdModel.BPlusTree.Preorder

open Data.Arrays Data.Rows Data.TotalRun Machine Caching Views Shape Allocation Ordering Pending
  Steps Descent LeafLevel Boot Put History Reading RangeRun Dump

/-- The nodes from `o` on down to `h` levels, each before its children and these from left to right,
with their levels. -/
def preorder (t : Tree) : ℕ → ℤ → ℤ → List (ℤ × ℤ)
  | 0, _, _ => []
  | h + 1, o, level => (o, level) :: (kids t o).flatMap fun v ↦ preorder t h v (level + 1)

/-- There are `h` levels of nodes. -/
def HasHeight (t : Tree) (h : ℕ) : Prop := ∀ i, layer t i = [] ↔ h ≤ i

/-- The nodes of the first `h` levels with their levels, by levels. -/
def byLevel (t : Tree) (h : ℕ) : List (ℤ × ℤ) :=
  (List.range h).flatMap fun i ↦ (layer t i).map fun o ↦ (o, (i : ℤ) + 1)

/-- The node and the level of a call of `draw`. -/
def brief (d : Drawing) : ℤ × ℤ := (d.self, d.level)

/-- The block at `o` is a node that has `h` levels below it. -/
def Subtree (cf : Config) (st : Store) : ℕ → ℤ → Prop
  | 0, o => o ≠ invalidOffset ∧ ∃ w c, content st o = some c ∧ LeafOk cf w c
  | h + 1, o => o ≠ invalidOffset ∧ ∃ w c, content st o = some c ∧ InnerOk cf w c ∧
      ∀ v ∈ c.vals, Subtree cf st h v

variable {cf : Config} {t₀ t : Tree} {st : Store} {w u : Row} {us : List Row} {o d level : ℤ}
  {c : Ptr} {n : Node} {h room fuel N : ℕ} {stack : List NodeBacklog} {X : List (ℤ × ℤ)}

section Levels

theorem subtree_root (hup : Upper cf st w us) (hw : ∀ o ∈ nodes w, Subtree cf st h o)
    (hinv : ∀ o ∈ nodes w ++ offsets us, o ≠ invalidOffset) :
    Subtree cf st (h + us.length) st.root := by
  induction us generalizing w h with
  | nil =>
    obtain ⟨rfl, -⟩ := hup
    exact hw _ List.mem_cons_self
  | cons u us ih =>
    obtain ⟨rfl, hin, -, hup⟩ := hup
    rw [List.length_cons, Nat.add_comm us.length 1, ← Nat.add_assoc]
    refine ih hup (fun o ho ↦ ?_) fun o ho ↦ hinv o (List.mem_append_right _ ho)
    obtain ⟨c, hc, hok, -⟩ := hin o ho
    refine ⟨hinv o (List.mem_append_right _ (List.mem_append_left _ ho)), _, c, hc, hok, ?_⟩
    intro v hv
    exact hw v ((mem_nodes_expand hin).mpr ⟨o, ho, c, hc, hv⟩)

theorem Subtree.ne_invalid (hs : Subtree cf st h o) : o ≠ invalidOffset := by
  cases h with
  | zero => exact hs.1
  | succ h => exact hs.1

theorem Subtree.disk (hs : Subtree cf st h o) : ∃ b, st.disk o = some b := by
  have hc : ∃ c, content st o = some c := by
    cases h with
    | zero =>
      obtain ⟨-, w, c, hc, -⟩ := hs
      exact ⟨c, hc⟩
    | succ h =>
      obtain ⟨-, w, c, hc, -⟩ := hs
      exact ⟨c, hc⟩
  obtain ⟨c, hc⟩ := hc
  obtain ⟨b, hb, -⟩ := Option.map_eq_some_iff.mp hc
  exact ⟨b, hb⟩

end Levels

section Run

variable (t₀) in
/-- What is drawn, without the text; the tree is left as it is. -/
def Draws (X : List (ℤ × ℤ)) (ds : List Drawing) (t : Tree) : Prop :=
  Still t₀ t ∧ ds.map brief = X

variable (cf t₀ st room) in
/-- From a stack on, with nothing to go down to, `X` is drawn. -/
def Backtracks (stack : List NodeBacklog) (level : ℤ) (X : List (ℤ × ℤ)) (N : ℕ) : Prop :=
  ∀ ⦃t nbl fuel⦄, Rep t st [] → Still t₀ t → N ≤ fuel →
    Runs (dumpLoop cf room fuel none nbl stack level) t (Draws t₀ X)

theorem backtracks_nil : Backtracks cf t₀ st room [] level [] 1 := by
  intro t nbl fuel _ hstill hfuel
  obtain ⟨fuel, rfl⟩ := Nat.exists_eq_add_of_le' hfuel
  unfold dumpLoop
  exact runs_pure ⟨hstill, rfl⟩

/-- An entry without an offset is passed over. -/
theorem Backtracks.pass (hb : Backtracks cf t₀ st room stack level X N) (k : ℤ) :
    Backtracks cf t₀ st room (⟨invalidOffset, k⟩ :: stack) (level + 1) X (N + 1) := by
  intro t nbl fuel hrep hstill hfuel
  obtain ⟨fuel, rfl⟩ : ∃ f, fuel = f + 1 := ⟨fuel - 1, by omega⟩
  have hseek : Runs (nodeSeek invalidOffset) t fun p t' ↦ p = none ∧ t' = t := by
    unfold nodeSeek
    rw [if_pos rfl]
    exact runs_pure ⟨rfl, rfl⟩
  unfold dumpLoop
  refine hseek.seq ?_
  rintro _ _ ⟨rfl, rfl⟩
  rw [Int.add_sub_cancel]
  exact hb hrep hstill (by omega)

variable (cf t₀ st room) in
/-- From a node that has come out of the backlog `nbl` on, `X` is drawn. -/
def Enters (o : ℤ) (nbl : Option NodeBacklog) (stack : List NodeBacklog) (level : ℤ)
    (X : List (ℤ × ℤ)) (N : ℕ) : Prop :=
  ∀ ⦃t c n fuel⦄, Seen t₀ t st c n → st.disk o = some (block n) → N ≤ fuel →
    Runs (dumpLoop cf room fuel (some c) nbl stack level) t (Draws t₀ X)

theorem Enters.seek {nbl : Option NodeBacklog} (he : Enters cf t₀ st room o nbl stack level X N)
    (hs : Subtree cf st h o) (hrep : Rep t st []) (hstill : Still t₀ t) (hfuel : N ≤ fuel) :
    Runs (do
      let next ← nodeSeek o
      dumpLoop cf room fuel next nbl stack level) t (Draws t₀ X) := by
  obtain ⟨b, hb⟩ := hs.disk
  refine (seek_run hstill hrep hs.ne_invalid hb).seq ?_
  rintro _ t' ⟨c, n, rfl, -, rfl, hseen⟩
  exact he hseen hb hfuel

/-- An entry with an offset leads back to its node. -/
theorem Enters.back {k : ℤ} (he : Enters cf t₀ st room o (some ⟨o, k⟩) stack level X N)
    (hs : Subtree cf st h o) :
    Backtracks cf t₀ st room (⟨o, k⟩ :: stack) (level + 1) X (N + 1) := by
  intro t nbl fuel hrep hstill hfuel
  obtain ⟨fuel, rfl⟩ : ∃ f, fuel = f + 1 := ⟨fuel - 1, by omega⟩
  unfold dumpLoop
  rw [Int.add_sub_cancel]
  exact he.seek hs hrep hstill (by omega)

/-- A round at a node: it is drawn if no child has been passed yet. -/
theorem round_run {nbl : Option NodeBacklog} {k : ℤ} (hseen : Seen t₀ t st c n)
    (hk : (nbl.map NodeBacklog.nextSubIdx).getD 0 = k) (hroom : stack.length < room)
    (hdown : Runs (do
      let next ← down cf n c k
      dumpLoop cf room fuel next none (backlog n k :: stack) (level + 1)) t (Draws t₀ X)) :
    Runs (dumpLoop cf room (fuel + 1) (some c) nbl stack level) t
      (Draws t₀ ((if k = 0 then [(n.self, level + 1)] else []) ++ X)) := by
  unfold dumpLoop
  refine hseen.node_bind ?_
  dsimp only
  rw [hk, if_neg (by omega)]
  have hrun := hdown.seq (g := fun rest ↦ pure ((if k = 0 then
    [draw n (backlog n k :: stack).reverse (level + 1)] else []) ++ rest)) (R := Draws t₀
      ((if k = 0 then [(n.self, level + 1)] else []) ++ X)) fun ds t' hds ↦ ?_
  · simpa only [bind_assoc] using hrun
  · refine runs_pure ⟨hds.1, ?_⟩
    rw [List.map_append, hds.2]
    congr 1
    split_ifs <;> rfl

theorem leaf_enters (hrep : Rep t₀ st []) (hs : Subtree cf st 0 o) (hroom : stack.length < room)
    (hb : Backtracks cf t₀ st room stack level X N) :
    Enters cf t₀ st room o none stack level (preorder t₀ 1 o (level + 1) ++ X) (N + 2) := by
  obtain ⟨-, w, co, hc, hok⟩ := hs
  intro t c n fuel hseen hd hfuel
  obtain ⟨fuel, rfl⟩ : ∃ f, fuel = f + 1 := ⟨fuel - 1, by omega⟩
  have hco : co = Block.content (block n) := by
    rw [content, hd] at hc
    exact (Option.some.inj hc).symm
  have hleaf : isLeaf n = true := by
    rw [hco] at hok
    simp [isLeaf, show n.type = .leaf from hok.kind]
  have hself : n.self = o := hseen.rep.self o _ hd
  have hone : preorder t₀ 1 o (level + 1) = [(n.self, level + 1)] := by
    rw [preorder, kids_leaf hrep hc hok, hself]
    rfl
  rw [hone]
  refine round_run (k := 0) hseen rfl hroom ?_
  rw [down, if_pos hleaf, show backlog n 0 = ⟨invalidOffset, 0⟩ from if_pos (Or.inl hleaf)]
  exact hb.pass 0 hseen.rep hseen.still (by omega)

/-- What is left to be drawn from a node on whose first `k` children have been passed. -/
def remaining (t : Tree) (h : ℕ) (o : ℤ) (vs : List ℤ) (k : ℕ) (level : ℤ) : List (ℤ × ℤ) :=
  (if (k : ℤ) = 0 then [(o, level)] else []) ++ (vs.drop k).flatMap fun v ↦ preorder t h v (level + 1)

/-- A round at a node with children: the next of them is entered. -/
theorem child_enters {co : Content} {k : ℕ} {v : ℤ} {e : NodeBacklog} {nbl : Option NodeBacklog}
    {Y : List (ℤ × ℤ)} (hc : content st o = some co) (hok : InnerOk cf w co)
    (hroom : stack.length < room) (hnbl : (nbl.map NodeBacklog.nextSubIdx).getD 0 = k)
    (hv : co.vals[k]? = some v) (hs : Subtree cf st h v)
    (he : e = if k + 1 ≥ co.vals.length then ⟨invalidOffset, 0⟩ else ⟨o, k + 1⟩)
    (hchild : Enters cf t₀ st room v none (e :: stack) (level + 1) Y N) :
    Enters cf t₀ st room o nbl stack level
      ((if (k : ℤ) = 0 then [(o, level + 1)] else []) ++ Y) (N + 1) := by
  intro t c n fuel hseen hd hfuel
  obtain ⟨fuel, rfl⟩ : ∃ f, fuel = f + 1 := ⟨fuel - 1, by omega⟩
  obtain rfl : Block.content (block n) = co := by
    rw [content, hd] at hc
    exact Option.some.inj hc
  change (block n).vals[k]? = some v at hv
  change e = if k + 1 ≥ (block n).vals.length then _ else _ at he
  have hin := inner_of_ok hok
  have hcap : ((block n).vals.length : ℤ) ≤ cf.maxOrder := hok.cap
  have hlen : (block n).vals.length = (block n).keys.length + 1 := hok.keys
  have hchildren := hin.children
  have hself : n.self = o := hseen.rep.self o _ hd
  have hinner : ¬isLeaf n = true := by simp [isLeaf, hin.type]
  have hlt : k < (block n).vals.length := (List.getElem?_eq_some_iff.mp hv).1
  have hsub : n.sub k = v := by
    rw [hin.block_eq] at hv
    exact (getElem?_front hv).2
  have hentry : backlog n k = e := by
    rw [he, backlog]
    by_cases hlast : k + 1 ≥ (block n).vals.length
    · rw [if_pos hlast, if_pos (Or.inr (by omega))]
    · rw [if_neg hlast, if_neg (not_or.mpr ⟨hinner, by omega⟩), hself]
  rw [← hself]
  refine round_run hseen hnbl hroom ?_
  have hbounds : 0 ≤ (k : ℤ) ∧ (k : ℤ) < subField.cap cf n := by
    change 0 ≤ (k : ℤ) ∧ (k : ℤ) < cf.maxOrder
    omega
  have hload : Runs (load cf subField c k) t fun x t' ↦ x = v ∧ t' = t :=
    hseen.load_run hbounds ⟨hsub, rfl⟩
  rw [hentry, down, if_neg hinner, bind_assoc]
  refine hload.seq ?_
  rintro _ _ ⟨rfl, rfl⟩
  exact hchild.seek hs hseen.rep hseen.still (by omega)

/-- The node with its children from `k` on, if its children can be entered. -/
theorem inner_enters {co : Content} (hs : Subtree cf st (h + 1) o)
    (hc : content st o = some co) (hok : InnerOk cf w co) (hsub : ∀ v ∈ co.vals, Subtree cf st h v)
    (hroom : stack.length < room)
    (hchild : ∀ v ∈ co.vals, ∀ ⦃stack' level' X' N'⦄, stack'.length = stack.length + 1 →
      Backtracks cf t₀ st room stack' level' X' N' →
      ∃ N, Enters cf t₀ st room v none stack' level' (preorder t₀ (h + 1) v (level' + 1) ++ X') N)
    (hb : Backtracks cf t₀ st room stack level X N) {k r : ℕ} (hk : co.vals.length = k + r + 1)
    {nbl : Option NodeBacklog} (hnbl : (nbl.map NodeBacklog.nextSubIdx).getD 0 = k) :
    ∃ N', Enters cf t₀ st room o nbl stack level
      (remaining t₀ (h + 1) o co.vals k (level + 1) ++ X) N' := by
  induction r generalizing k nbl with
  | zero =>
    have hlt : k < co.vals.length := by omega
    have hv : co.vals[k]? = some co.vals[k] := List.getElem?_eq_getElem hlt
    have hmem : co.vals[k] ∈ co.vals := List.getElem_mem hlt
    obtain ⟨N₁, h₁⟩ := hchild _ hmem rfl (hb.pass 0)
    refine ⟨N₁ + 1, ?_⟩
    have hlast : co.vals.drop k = [co.vals[k]] := by
      rw [List.drop_eq_getElem_cons hlt, List.drop_eq_nil_of_le (by omega)]
    have henter := child_enters hc hok hroom hnbl hv (hsub _ hmem)
      (if_pos (show k + 1 ≥ co.vals.length by omega)).symm h₁
    rw [remaining, hlast, List.flatMap_singleton, List.append_assoc]
    exact henter
  | succ r ih =>
    have hlt : k < co.vals.length := by omega
    have hv : co.vals[k]? = some co.vals[k] := List.getElem?_eq_getElem hlt
    have hmem : co.vals[k] ∈ co.vals := List.getElem_mem hlt
    have hnext : ((some (⟨o, k + 1⟩ : NodeBacklog)).map NodeBacklog.nextSubIdx).getD 0 =
        (k + 1 : ℕ) := (Nat.cast_succ k).symm
    obtain ⟨N₁, h₁⟩ := ih (by omega) hnext
    obtain ⟨N₂, h₂⟩ := hchild _ hmem rfl (h₁.back hs)
    refine ⟨N₂ + 1, ?_⟩
    have henter := child_enters hc hok hroom hnbl hv (hsub _ hmem)
      (if_neg (show ¬k + 1 ≥ co.vals.length by omega)).symm h₂
    have hrest : remaining t₀ (h + 1) o co.vals (k + 1) (level + 1) =
        (co.vals.drop (k + 1)).flatMap fun v ↦ preorder t₀ (h + 1) v (level + 1 + 1) := by
      rw [remaining, if_neg (by omega), List.nil_append]
    rw [remaining, List.drop_eq_getElem_cons hlt, List.flatMap_cons, List.append_assoc,
      List.append_assoc, ← hrest]
    exact henter

theorem enters (hrep : Rep t₀ st []) (hs : Subtree cf st h o) (hroom : stack.length + h < room)
    (hb : Backtracks cf t₀ st room stack level X N) :
    ∃ N', Enters cf t₀ st room o none stack level (preorder t₀ (h + 1) o (level + 1) ++ X) N' := by
  induction h generalizing o stack level X N with
  | zero => exact ⟨_, leaf_enters hrep hs hroom hb⟩
  | succ h ih =>
    obtain ⟨-, w, co, hc, hok, hsub⟩ := id hs
    have htwo := hok.two
    have hlen : co.vals.length = 0 + (co.vals.length - 1) + 1 := by omega
    have hfirst : ((none : Option NodeBacklog).map NodeBacklog.nextSubIdx).getD 0 = (0 : ℕ) := rfl
    obtain ⟨N', he⟩ := inner_enters hs hc hok hsub (by omega) (fun v hv _ _ _ _ hlen hb' ↦
      ih (hsub v hv) (by omega) hb') hb hlen hfirst
    refine ⟨N', ?_⟩
    have hall : preorder t₀ (h + 1 + 1) o (level + 1) =
        remaining t₀ (h + 1) o co.vals 0 (level + 1) := by
      rw [preorder, kids_inner hrep hc hok, remaining]
      rfl
    rw [hall]
    exact he

end Run

section Result

variable {m ops : List (ℤ × ℤ)}

theorem layer_eq_iterate (t : Tree) (i : ℕ) :
    layer t i = (fun os ↦ os.flatMap (kids t))^[i] (layer t 0) := by
  induction i with
  | zero => rfl
  | succ i ih =>
    rw [Function.iterate_succ_apply', ← ih]
    rfl

/-- The nodes in the order in which they are drawn are those of the levels. -/
theorem preorder_perm (t : Tree) (h : ℕ) (os : List ℤ) (level : ℤ) :
    (os.flatMap fun o ↦ preorder t h o level).Perm ((List.range h).flatMap fun i ↦
      ((fun os ↦ os.flatMap (kids t))^[i] os).map fun o ↦ (o, level + i)) := by
  induction h generalizing os level with
  | zero => simp [preorder]
  | succ h ih =>
    have hsplit : (os.flatMap fun o ↦ preorder t (h + 1) o level).Perm
        (os.map (fun o ↦ (o, level)) ++
          (os.flatMap (kids t)).flatMap fun v ↦ preorder t h v (level + 1)) := by
      rw [List.flatMap_assoc]
      exact (List.map_append_flatMap_perm os _ _).symm
    refine hsplit.trans ?_
    rw [List.range_succ_eq_map, List.flatMap_cons, List.flatMap_map]
    refine List.Perm.append (by simp) ((ih _ _).trans ?_)
    refine List.Perm.of_eq (List.flatMap_congr fun i _ ↦ ?_)
    rw [Function.iterate_succ_apply]
    congr 1
    funext o
    rw [Nat.cast_succ]
    congr 1
    ring

theorem preorder_byLevel (t : Tree) (h : ℕ) (hroot : t.root ≠ invalidOffset) :
    (preorder t h t.root 1).Perm (byLevel t h) := by
  have hperm := preorder_perm t h [t.root] 1
  rw [List.flatMap_singleton] at hperm
  refine hperm.trans (List.Perm.of_eq (List.flatMap_congr fun i _ ↦ ?_))
  have hstart : layer t 0 = [t.root] := if_neg hroot
  rw [layer_eq_iterate, hstart]
  congr 1
  funext o
  rw [Int.add_comm]

/-- What the calls of `draw` in a dump of a tree of height `h` are: every node once, before what is
below it and from left to right, with the level it is on. -/
structure Dumped (t : Tree) (h : ℕ) (ds : List Drawing) : Prop where
  order : ds.map brief = preorder t h t.root 1
  once : (ds.map Drawing.self).Nodup
  all : ∀ o, o ∈ ds.map Drawing.self ↔ Reachable t o
  depth : ∀ d ∈ ds, ∃ i : ℕ, d.self ∈ layer t i ∧ d.level = i + 1

theorem map_fst_byLevel (t : Tree) (h : ℕ) : (byLevel t h).map Prod.fst = layers t h := by
  rw [byLevel, layers, List.map_flatMap]
  refine List.flatMap_congr fun i _ ↦ ?_
  rw [List.map_map]
  exact List.map_id _

theorem dumped_of_order {ds : List Drawing} (hroot : t.root ≠ invalidOffset)
    (hnodup : (layers t h).Nodup) (hreach : ∀ o, Reachable t o ↔ o ∈ layers t h)
    (hds : ds.map brief = preorder t h t.root 1) : Dumped t h ds := by
  have hlevels : (ds.map brief).Perm (byLevel t h) := hds ▸ preorder_byLevel t h hroot
  have hself : (ds.map Drawing.self).Perm (layers t h) := by
    rw [← map_fst_byLevel]
    have hmap := hlevels.map Prod.fst
    rw [List.map_map] at hmap
    exact hmap
  refine ⟨hds, hself.nodup_iff.mpr hnodup, fun o ↦ hself.mem_iff.trans (hreach o).symm, ?_⟩
  intro d hd
  obtain ⟨i, -, hi⟩ := List.mem_flatMap.mp (hlevels.mem_iff.mp (List.mem_map_of_mem hd))
  obtain ⟨o, ho, he⟩ := List.mem_map.mp hi
  obtain ⟨rfl, hlevel⟩ := Prod.mk.inj he
  exact ⟨i, ho, hlevel.symm⟩

theorem layer_nil_le {i j : ℕ} (hij : i ≤ j) (hi : layer t i = []) : layer t j = [] := by
  induction j, hij using Nat.le_induction with
  | base => exact hi
  | succ j _ ih => rw [layer, ih, List.flatMap_nil]

theorem hasHeight_of_good (hcf : Sized cf) (hrep : Rep t st []) (hg : Good cf st w us d) :
    HasHeight t (us.length + 1) := by
  have hroot := hg.alloc.ne_invalid hcf (root_mem hg.upper)
  intro i
  constructor
  · intro hi
    by_contra hlt
    have hlast := layer_nil_le (show i ≤ us.length by omega) hi
    rw [layer_upper hrep hroot hg.upper] at hlast
    have hlen := length_upper hg.upper
    rw [hlast] at hlen
    exact absurd hlen (Nat.not_lt_zero _)
  · exact layer_below hrep hroot hg.upper hg.leaves

theorem subtree_of_good (hcf : Sized cf) (hg : Good cf st w us d) :
    Subtree cf st us.length st.root := by
  have hvalid : ∀ o ∈ nodes w ++ offsets us, o ≠ invalidOffset := fun o ↦
    hg.alloc.ne_invalid hcf
  have hleaf : ∀ o ∈ nodes w, Subtree cf st 0 o := by
    intro o ho
    obtain ⟨c, hc, hok⟩ := hg.leaves.leaf o ho
    exact ⟨hvalid o (List.mem_append_left _ ho), w, c, hc, hok⟩
  have hroot := subtree_root hg.upper hleaf hvalid
  rwa [Nat.zero_add] at hroot

/-- The stack is as high as the tree, and no higher. -/
theorem dumpWith_run (hcf : Sized cf) (hrep : Rep t st []) (hg : Good cf st w us d) :
    ∃ N, ∀ fuel, N ≤ fuel → Runs (dumpWith cf (us.length + 1) fuel) t fun ds t' ↦
      Still t t' ∧ Dumped t (us.length + 1) ds := by
  have hroot := hg.alloc.ne_invalid hcf (root_mem hg.upper)
  have hsub := subtree_of_good hcf hg
  have hend : Backtracks cf t st (us.length + 1) [] 0 [] 1 := backtracks_nil
  obtain ⟨N, he⟩ := enters hrep hsub (by simp) hend
  refine ⟨N, fun fuel hfuel ↦ ?_⟩
  have hrun := he.seek hsub hrep still_refl hfuel
  rw [← hrep.root] at hrun
  refine Runs.mono (f := dumpWith cf (us.length + 1) fuel) hrun ?_
  rintro ds t' ⟨hstill, hds⟩
  rw [List.append_nil] at hds
  refine ⟨hstill, dumped_of_order (hrep.root ▸ hroot) ?_ (fun o ↦ ?_) hds⟩
  · exact (layers_perm hrep hroot hg.upper).nodup_iff.mpr hg.alloc.nodup.of_append_left
  · exact reachable_iff hrep hroot hg.upper hg.leaves

theorem dumpWith_empty (hroot : t.root = invalidOffset) :
    ∃ N, ∀ fuel, N ≤ fuel → Runs (dumpWith cf 0 fuel) t fun ds t' ↦
      Still t t' ∧ Dumped t 0 ds := by
  refine ⟨1, fun fuel hfuel ↦ ?_⟩
  obtain ⟨fuel, rfl⟩ := Nat.exists_eq_add_of_le' hfuel
  have hnone : Runs (nodeSeek t.root) t fun p t' ↦ p = none ∧ t' = t := by
    rw [hroot]
    unfold nodeSeek
    rw [if_pos rfl]
    exact runs_pure ⟨rfl, rfl⟩
  have hempty := layer_empty hroot
  have hrun : Runs (do
      let start ← nodeSeek t.root
      dumpLoop cf 0 (fuel + 1) start none [] 0) t fun ds t' ↦ Still t t' ∧ ds = [] := by
    refine hnone.seq ?_
    rintro _ _ ⟨rfl, rfl⟩
    unfold dumpLoop
    exact runs_pure ⟨still_refl, rfl⟩
  refine Runs.mono (f := dumpWith cf 0 (fuel + 1)) hrun ?_
  rintro _ t' ⟨hstill, rfl⟩
  refine ⟨hstill, rfl, List.nodup_nil, fun o ↦ ?_, fun d hd ↦ absurd hd List.not_mem_nil⟩
  constructor
  · exact fun ho ↦ absurd ho List.not_mem_nil
  · rintro ⟨i, hi⟩
    rwa [hempty i] at hi

/-- With more room the dump is the same. -/
theorem dumpLoop_refines {room' : ℕ} (hle : room ≤ room') (fuel : ℕ) (p : Option Ptr)
    (nbl : Option NodeBacklog) (stack : List NodeBacklog) (level : ℤ) :
    Refines (dumpLoop cf room fuel p nbl stack level)
      (dumpLoop cf room' fuel p nbl stack level) := by
  induction fuel generalizing p nbl stack level with
  | zero => exact refines_refl _
  | succ fuel ih =>
    cases p with
    | some c =>
      unfold dumpLoop
      refine refines_seq fun n ↦ ?_
      by_cases hfull : stack.length ≥ room
      · intro s r hr
        simp only [if_pos hfull] at hr
        cases hr
      · simp only [if_neg hfull, if_neg (show ¬stack.length ≥ room' by omega)]
        exact refines_seq fun next ↦ (ih next none _ _).bind fun rest ↦ refines_refl _
    | none =>
      cases stack with
      | nil => exact refines_refl _
      | cons top stack =>
        unfold dumpLoop
        exact refines_seq fun next ↦ ih next _ _ _

theorem dumpWith_refines {room' : ℕ} (hle : room ≤ room') (fuel : ℕ) :
    Refines (dumpWith cf room fuel) (dumpWith cf room' fuel) :=
  refines_seq fun _ ↦ refines_seq fun start ↦ dumpLoop_refines hle fuel start none [] 0

example : ends (do
    let _ ← puts (geometry 128) 20 (tens 9)
    bplusTreeDump (geometry 128) 20) small (fun ds _ ↦
      ds.map brief = [(256, 1), (0, 2), (128, 2)]) = true := by
  decide +kernel

end Result

end MqssdModel.BPlusTree.Preorder
