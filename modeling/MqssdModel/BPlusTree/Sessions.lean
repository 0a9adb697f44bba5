import MqssdModel.BPlusTree.Reopen

namespace MqssdModel.BPlusTree.Sessions

open Data.Assoc Data.Rows Data.TotalRun Machine Caching Views Shape Allocation Ordering LeafLevel Boot
  Put History Reading FileGrowth Reopen

/-- The files after some sessions, each of them from `bplus_tree_init` to `bplus_tree_deinit`, with
all calls of `put` so far and their results. At the end of every session, the files and the tree are
as `P` says. -/
inductive Saved (filename : String) (P : Files → Tree → Prop) :
    Files → List (ℤ × ℤ) → List ℤ → Prop where
  | new : Saved filename P noFiles [] []
  | session {fs : Files} {done ops : List (ℤ × ℤ)} {xs ys : List ℤ} {blockSize : ℤ}
      {heap : Slot → Node} {cf₀ cf : Config} {t t' : Tree} {fuel : ℕ} :
      Saved filename P fs done xs → blockSize < 2 ^ 31 →
      bplusTreeInit filename blockSize heap fs cf₀ = (cf, some t) →
      done.length + ops.length ≤ fuel → puts cf fuel ops t = .ok (ys, t') → P fs t' →
      Saved filename P (bplusTreeDeinit cf t' { fs with data := t'.file }) (done ++ ops) (xs ++ ys)

/-- At the end of the session the boot file there is has no more free blocks than are to be stored,
and their offsets take no more than an `int`. -/
structure Overwrites (fs : Files) (t : Tree) : Prop where
  tail : (fs.boot.getD []).length ≤ t.freeBlocks.length + 3
  free : ∀ o ∈ t.freeBlocks, o < 2 ^ 31
  size : t.fileSize < 2 ^ 63

/-- The tree that is opened next holds the entries `m`. -/
def Opens (filename : String) (fs : Files) (m : List (ℤ × ℤ)) : Prop :=
  ∀ {blockSize heap cf₀}, blockSize < 2 ^ 31 → Acceptable filename blockSize →
    ∃ cf t d, bplusTreeInit filename blockSize heap fs cf₀ = (cf, some t) ∧ Sized cf ∧
      cf = geometry cf.blockSize ∧ cf.blockSize < 2 ^ 31 ∧ Stands cf t m d

variable {filename : String} {fs : Files} {cf : Config} {t t' : Tree} {st : Store} {d : ℤ}
  {heap : Slot → Node} {m done ops : List (ℤ × ℤ)} {xs ys : List ℤ} {P : Files → Tree → Prop}

section Open

/-- The level is lost, and the free blocks come in the other order. -/
theorem rep_reopened (h : Rep t st []) (hfree : t.freeBlocks.map (wrap 32) = t.freeBlocks) :
    Rep (reopened heap t) { st with level := 0, free := st.free.reverse } [] where
  file := h.file
  self := h.self
  root := h.root
  level := rfl
  fileSize := h.fileSize
  free := by rw [reopened, hfree, h.free]
  nodup := List.nodup_nil
  used i := by simp [reopened]
  turn p hp := absurd hp List.not_mem_nil
  caches p hp := absurd hp List.not_mem_nil

theorem alloc_reopened {used : List ℤ} (h : Alloc cf st used) :
    Alloc cf { st with level := 0, free := st.free.reverse } used := by
  have hperm : (used ++ st.free.reverse).Perm (used ++ st.free) :=
    List.Perm.append_left _ (List.reverse_perm _)
  exact ⟨hperm.nodup_iff.mpr h.nodup, fun o ↦ hperm.mem_iff.trans (h.mem o), h.dvd, h.nonneg⟩

theorem stands_reopened (h : Stands cf t m d)
    (hfree : t.freeBlocks.map (wrap 32) = t.freeBlocks) :
    ∃ d', Stands cf (reopened heap t) m d' := by
  obtain ⟨st, hrep, ⟨rfl, hroot, -, halloc, -⟩ | ⟨w, us, hg, rfl⟩⟩ := h
  · exact ⟨1, _, rep_reopened hrep hfree,
      Or.inl ⟨rfl, hroot, rfl, alloc_reopened halloc, rfl⟩⟩
  · refine ⟨0 - us.length, _, rep_reopened hrep hfree, Or.inr ⟨w, us, ⟨?_, ?_, ?_, ?_, rfl⟩, ?_⟩⟩
    · exact hg.upper.congr rfl (fun _ _ ↦ rfl) fun _ _ ↦ rfl
    · exact ⟨hg.leaves.leaf, hg.leaves.linked⟩
    · rw [Ordered, marks_congr (fun _ _ ↦ rfl)]
      exact hg.ordered
    · exact alloc_reopened hg.alloc
    · exact (entries_congr fun _ _ ↦ rfl).symm

theorem free_of_stands (hcf : Sized cf) (h : Stands cf t m d) :
    t.freeBlocks.Nodup ∧ ∀ o, Reachable t o → o ∉ t.freeBlocks := by
  obtain ⟨st, hrep, ⟨-, hroot, -, halloc, -⟩ | ⟨w, us, hg, -⟩⟩ := h
  · refine ⟨hrep.free ▸ halloc.nodup, ?_⟩
    rintro o ⟨i, hi⟩
    rw [layer_empty (hrep.root.trans hroot)] at hi
    exact absurd hi List.not_mem_nil
  · have hroot := hg.alloc.ne_invalid hcf (root_mem hg.upper)
    refine ⟨hrep.free ▸ hg.alloc.nodup.of_append_right, fun o ho ↦ ?_⟩
    have hmem := (layers_perm hrep hroot hg.upper).mem_iff.mp
      ((reachable_iff hrep hroot hg.upper hg.leaves).mp ho)
    rw [hrep.free]
    exact List.disjoint_of_nodup_append hg.alloc.nodup hmem

end Open

section Runs

theorem opens_new : Opens filename noFiles [] := by
  intro blockSize heap cf₀ hlt ha
  have hinit : bplusTreeInit filename blockSize heap noFiles cf₀ = (geometry blockSize, some
      ⟨heap, fun _ ↦ false, fun _ ↦ 0, 0, invalidOffset, 0, [], noFiles.data⟩) := by
    unfold bplusTreeInit
    rw [if_neg (Nat.not_le.mpr ha.name), if_neg (not_not.mpr ha.power),
      if_neg (not_lt.mpr ha.node), if_neg (not_le.mpr ha.order)]
    rfl
  have hfresh : Fresh (geometry blockSize) _ := ⟨filename, blockSize, heap, cf₀, hlt, hinit⟩
  exact ⟨_, _, 1, hinit, hfresh.sized, rfl, hlt, hfresh.stands⟩

/-- What is saved at the end of a session is opened at the start of the next one. -/
theorem opens_deinit (hcf : Sized cf) (hstatics : cf = geometry cf.blockSize)
    (hblock : cf.blockSize < 2 ^ 31) (h : Stands cf t m d) (hp : Overwrites fs t) :
    Opens filename (bplusTreeDeinit cf t { fs with data := t.file }) m := by
  intro blockSize heap cf₀ _ ha
  have hboot := bootable_of_stands hcf hstatics hblock h hp.size
  have hfree : t.freeBlocks.map (wrap 32) = t.freeBlocks :=
    (List.map_congr_left fun o ho ↦ (wrap_int (hboot.free o ho).1).mpr (hp.free o ho)).trans
      (List.map_id _)
  have hstands : ∃ d', Stands cf (reopened heap t) m d' := stands_reopened h hfree
  obtain ⟨d', hstands⟩ := hstands
  exact ⟨cf, _, d', init_deinit ha hboot hp.tail, hcf, hstatics, hblock, hstands⟩

theorem acceptable_of_init {blockSize : ℤ} {cf₀ : Config}
    (h : bplusTreeInit filename blockSize heap fs cf₀ = (cf, some t)) :
    Acceptable filename blockSize := by
  obtain ⟨hpower, hnode, horder⟩ := accepted h
  refine ⟨?_, hpower, hnode, horder⟩
  by_contra hlong
  unfold bplusTreeInit at h
  rw [if_pos (Nat.le_of_not_lt hlong)] at h
  cases h

theorem table_puts_append (f : Table) (ops ops' : List (ℤ × ℤ)) :
    Table.puts f (ops ++ ops') = ((Table.puts f ops).1 ++ (Table.puts (Table.puts f ops).2 ops').1,
      (Table.puts (Table.puts f ops).2 ops').2) := by
  induction ops generalizing f with
  | nil => rfl
  | cons op ops ih =>
    rw [List.cons_append, Table.puts, ih]
    rfl

/-- The calls of a session do to the tree what they do to the map. -/
theorem session_follows {blockSize : ℤ} {cf₀ : Config} {fuel : ℕ} (hopens : Opens filename fs m)
    (hlt : blockSize < 2 ^ 31)
    (hinit : bplusTreeInit filename blockSize heap fs cf₀ = (cf, some t))
    (hfuel : m.length + ops.length ≤ fuel) (hputs : puts cf fuel ops t = .ok (ys, t')) :
    Sized cf ∧ cf = geometry cf.blockSize ∧ cf.blockSize < 2 ^ 31 ∧
      ∃ d m' d', Follows cf ops.length t m d t' m' d' ∧
        (ys, table m') = Table.puts (table m) ops := by
  obtain ⟨cf', t₀, d, hinit', hcf, hstatics, hblock, hstands⟩ :=
    hopens hlt (acceptable_of_init hinit)
  obtain ⟨rfl, ht⟩ := Prod.mk.inj (hinit.symm.trans hinit')
  obtain rfl := Option.some.inj ht
  obtain ⟨m', d', hf, htables⟩ := (puts_follow hcf hstands hfuel).unique hputs
  exact ⟨hcf, hstatics, hblock, d, m', d', hf, htables⟩

/-- Session after session, the files hold the map that the calls make. -/
theorem saved_opens (h : Saved filename Overwrites fs ops xs) :
    ∃ m, Opens filename fs m ∧ m.length ≤ ops.length ∧
      (xs, table m) = Table.puts (fun _ ↦ none) ops := by
  induction h with
  | new => exact ⟨[], opens_new, le_rfl, rfl⟩
  | session hsaved hlt hinit hfuel hputs hp ih =>
    obtain ⟨m, hopens, hlen, htables⟩ := ih
    obtain ⟨hcf, hstatics, hblock, d, m', d', hf, htables'⟩ :=
      session_follows hopens hlt hinit (le_trans (Nat.add_le_add_right hlen _) hfuel) hputs
    refine ⟨m', opens_deinit hcf hstatics hblock hf.stands hp, ?_, ?_⟩
    · have hlen' := hf.length
      rw [List.length_append]
      omega
    · rw [table_puts_append, ← htables, ← htables']

end Runs

section Exact

theorem reachable_congr {o : ℤ} (h : Reachable t o) (hroot : t'.root = t.root)
    (hfile : t'.file = t.file) : Reachable t' o := by
  have hkids : kids t' = kids t := by
    funext p
    rw [kids, hfile]
    rfl
  have hlayer : ∀ i, layer t' i = layer t i := by
    intro i
    induction i with
    | zero => rw [layer, hroot]; rfl
    | succ i ih => rw [layer, ih, hkids]; rfl
  obtain ⟨i, hi⟩ := h
  exact ⟨i, (hlayer i).symm ▸ hi⟩

theorem free_below {o : ℤ} (h : Stands cf t m d) (ho : o ∈ t.freeBlocks) :
    0 ≤ o ∧ o < t.fileSize ∧ cf.blockSize ∣ o := by
  obtain ⟨st, hrep, hholds⟩ := h
  rw [hrep.free] at ho
  rw [hrep.fileSize]
  rcases hholds with ⟨-, -, -, halloc, -⟩ | ⟨w, us, hg, -⟩
  · exact (halloc.mem o).mp (List.mem_append_right _ ho)
  · exact (hg.alloc.mem o).mp (List.mem_append_right _ ho)

theorem reachable_or_free {o : ℤ} (hcf : Sized cf) (h : Stands cf t m d) (h₀ : 0 ≤ o)
    (hlt : o < t.fileSize) (hdvd : cf.blockSize ∣ o) : Reachable t o ∨ o ∈ t.freeBlocks := by
  obtain ⟨st, hrep, hholds⟩ := h
  rw [hrep.fileSize] at hlt
  rw [hrep.free]
  rcases hholds with ⟨-, -, -, halloc, -⟩ | ⟨w, us, hg, -⟩
  · exact Or.inr ((halloc.mem o).mpr ⟨h₀, hlt, hdvd⟩)
  · have hroot := hg.alloc.ne_invalid hcf (root_mem hg.upper)
    refine (List.mem_append.mp ((hg.alloc.mem o).mpr ⟨h₀, hlt, hdvd⟩)).imp_left fun ho ↦ ?_
    exact (reachable_iff hrep hroot hg.upper hg.leaves).mpr
      ((layers_perm hrep hroot hg.upper).mem_iff.mpr ho)

theorem length_bootFields (cf : Config) (t : Tree) :
    (bootFields cf t).length = t.freeBlocks.length + 3 := by
  simp [bootFields]

/-- The files are those of the tree `t`, and the boot file has nothing else in it. -/
structure Closed (filename : String) (fs : Files) (cf : Config) (t : Tree) : Prop where
  sized : Sized cf
  stands : ∃ m d, Stands cf t m d
  boot : fs.boot = some (bootFields cf t)
  free : ∀ o ∈ t.freeBlocks, 0 ≤ o ∧ o < 2 ^ 31 ∧ 2 ∣ o
  init : ∀ blockSize heap cf₀, Acceptable filename blockSize →
    bplusTreeInit filename blockSize heap fs cf₀ = (cf, some (reopened heap t))

theorem closed_of_saved (h : Saved filename Overwrites fs ops xs) :
    fs.boot = none ∨ ∃ cf t, Closed filename fs cf t := by
  cases h with
  | new => exact Or.inl rfl
  | session hsaved hlt hinit hfuel hputs hp =>
    right
    obtain ⟨m, hopens, hlen, -⟩ := saved_opens hsaved
    obtain ⟨hcf, hstatics, hblock, d, m', d', hf, -⟩ :=
      session_follows hopens hlt hinit (le_trans (Nat.add_le_add_right hlen _) hfuel) hputs
    have hboot := bootable_of_stands hcf hstatics hblock hf.stands hp.size
    refine ⟨_, _, hcf, ⟨m', d', hf.stands⟩, ?_, fun o ho ↦ ?_, fun _ heap cf₀ ha ↦ ?_⟩
    · rw [bplusTreeDeinit, List.drop_eq_nil_of_le, List.append_nil]
      rw [length_bootFields]
      exact hp.tail
    · obtain ⟨h₀, -, heven⟩ := hboot.free o ho
      exact ⟨h₀, hp.free o ho, heven⟩
    · exact init_deinit ha hboot hp.tail

/-- A field that is left of the boot file before is the offset of a block that is in use or free
by now. -/
theorem stale_not_safe {t₁ : Tree} (hc : Closed filename fs cf t₁) (hstands : Stands cf t m d)
    (hsize : t₁.fileSize ≤ t.fileSize)
    (hshort : t.freeBlocks.length < t₁.freeBlocks.length) :
    ∃ o ∈ loadFree ((fs.boot.getD []).drop (t.freeBlocks.length + 3)) [],
      Reachable t o ∨ o ∈ (reopened heap t).freeBlocks := by
  obtain ⟨m₁, d₁, hstands₁⟩ := hc.stands
  have hstale : (fs.boot.getD []).drop (t.freeBlocks.length + 3) =
      (t₁.freeBlocks.drop t.freeBlocks.length).map offsetStore ++ [] := by
    rw [hc.boot, List.append_nil, List.map_drop]
    rfl
  have hmem : t₁.freeBlocks[t.freeBlocks.length] ∈ t₁.freeBlocks.drop t.freeBlocks.length := by
    rw [List.drop_eq_getElem_cons hshort]
    exact List.mem_cons_self
  obtain ⟨o, ho⟩ : ∃ o, o ∈ t₁.freeBlocks.drop t.freeBlocks.length := ⟨_, hmem⟩
  have ho₁ := List.mem_of_mem_drop ho
  obtain ⟨h₀, hlt, hdvd⟩ := free_below hstands₁ ho₁
  have hwrap : wrap 32 o = o := (wrap_int h₀).mpr (hc.free o ho₁).2.1
  refine ⟨o, ?_, ?_⟩
  · rw [hstale, loadFree_append _ _ _ fun o ho ↦ ?_, loadFree]
    · exact List.mem_append_left _ (List.mem_reverse.mpr (List.mem_map.mpr ⟨o, ho, hwrap⟩))
    · obtain ⟨h₀, hlt, heven⟩ := hc.free o (List.mem_of_mem_drop ho)
      exact ⟨h₀, by omega, heven⟩
  · refine (reachable_or_free hc.sized hstands h₀ (hlt.trans_le hsize) hdvd).imp_right fun hf ↦ ?_
    exact List.mem_reverse.mpr (List.mem_map.mpr ⟨o, hf, hwrap⟩)

theorem loadFree_eq_append (boot : BootFile) (free : List ℤ) :
    loadFree boot free = loadFree boot [] ++ free := by
  induction boot generalizing free with
  | nil => rfl
  | cons s boot ih =>
    rw [loadFree, loadFree]
    split
    · rfl
    · rw [ih, ih [_], List.append_assoc]
      rfl

end Exact

section Small

theorem init_small (cf₀ : Config) :
    bplusTreeInit "index" 128 (fun _ ↦ blank) noFiles cf₀ = (geometry 128, some small) := by
  unfold bplusTreeInit
  rw [if_neg (by decide), if_neg (by decide), if_neg (by decide), if_neg (by decide)]
  rfl

theorem bootable_small (hroot : 0 ≤ t.root ∧ t.root < 2 ^ 63) (hsize : t.fileSize = 128)
    (hfree : ∀ o ∈ t.freeBlocks, o = 0) : Bootable (geometry 128) t := by
  obtain ⟨hstatics, hblock⟩ := statics_of_fresh fresh_small
  refine ⟨hstatics, hblock, hroot, by rw [hsize]; norm_num, fun o ho ↦ ?_⟩
  rw [hfree o ho]
  norm_num

/-- The first session puts an entry into the index and takes it out again, which leaves a free
block. -/
theorem first_session : ∃ xs t, puts (geometry 128) 9 [(1, 1), (1, 0)] small = .ok (xs, t) ∧
    t.root = invalidOffset ∧ t.freeBlocks = [0] ∧ t.fileSize = 128 := by
  have hcf : geometry 128 = ⟨128, 7, 7⟩ := by decide
  have heval : ends (puts ⟨128, 7, 7⟩ 9 [(1, 1), (1, 0)]) small
      (fun _ t ↦ t.root = invalidOffset ∧ t.freeBlocks = [0] ∧ t.fileSize = 128) = true := by
    decide +kernel
  obtain ⟨xs, t, hrun, ht⟩ := runs_of_ends heval
  exact ⟨xs, t, hcf ▸ hrun, of_decide_eq_true ht⟩

theorem init_second (hroot : t.root = invalidOffset) (hfree : t.freeBlocks = [0])
    (hsize : t.fileSize = 128) : bplusTreeInit "index" 128 (fun _ ↦ blank)
      (bplusTreeDeinit (geometry 128) t { noFiles with data := t.file }) (geometry 128) =
        (geometry 128, some (reopened (fun _ ↦ blank) t)) := by
  refine init_deinit acceptable_small (bootable_small ?_ hsize (by simp [hfree])) (Nat.zero_le _)
  rw [hroot]
  decide

/-- The second session puts an entry into the block that is free. -/
theorem second_session {t₁ : Tree}
    (h : puts (geometry 128) 9 [(1, 1), (1, 0)] small = .ok (xs, t₁)) :
    ∃ ys t₂, puts (geometry 128) 9 [(1, 1)] (reopened (fun _ ↦ blank) t₁) = .ok (ys, t₂) ∧
      t₂.root = 0 ∧ t₂.freeBlocks = [] ∧ t₂.fileSize = 128 := by
  have hcf : geometry 128 = ⟨128, 7, 7⟩ := by decide
  have heval : ends (do
      let _ ← puts ⟨128, 7, 7⟩ 9 [(1, 1), (1, 0)]
      modify (reopened fun _ ↦ blank)
      puts ⟨128, 7, 7⟩ 9 [(1, 1)]) small
      (fun _ t ↦ t.root = 0 ∧ t.freeBlocks = [] ∧ t.fileSize = 128) = true := by
    decide +kernel
  rw [← hcf] at heval
  obtain ⟨ys, t₂, hrun, ht⟩ := runs_of_ends heval
  obtain ⟨_, s, hs, hrest⟩ := bind_eq_ok.mp hrun
  cases hs.symm.trans h
  exact ⟨ys, t₂, hrest, of_decide_eq_true ht⟩

/-- The second session uses the block that the first one has left, and the third one finds it in
the boot file as a free block still. -/
theorem sessions_reuse_root : ∃ fs ops xs cf t, Saved "index" (fun _ _ ↦ True) fs ops xs ∧
    bplusTreeInit "index" 128 (fun _ ↦ blank) fs (geometry 128) = (cf, some t) ∧
      ∃ o, Reachable t o ∧ o ∈ t.freeBlocks := by
  obtain ⟨xs, t₁, hrun₁, hroot₁, hfree₁, hsize₁⟩ := first_session
  obtain ⟨ys, t₂, hrun₂, hroot₂, hfree₂, hsize₂⟩ := second_session hrun₁
  have hboot₂ : Bootable (geometry 128) t₂ := by
    refine bootable_small ?_ hsize₂ (by simp [hfree₂])
    rw [hroot₂]
    norm_num
  have hsaved₁ : Saved "index" (fun _ _ ↦ True) _ _ _ :=
    .session .new (by norm_num) (init_small (geometry 128)) (by decide) hrun₁ trivial
  have hsaved₂ : Saved "index" (fun _ _ ↦ True) _ _ _ :=
    .session hsaved₁ (by norm_num) (init_second hroot₁ hfree₁ hsize₁) (by decide) hrun₂ trivial
  refine ⟨_, _, _, geometry 128, _, hsaved₂, init_deinit_tail acceptable_small hboot₂, 0, ?_, ?_⟩
  · exact ⟨0, by simp [layer, reopened, hroot₂, invalidOffset]⟩
  · have htail : ((bplusTreeDeinit (geometry 128) t₁ { noFiles with data := t₁.file }).boot.getD
        []).drop (t₂.freeBlocks.length + 3) = [0].map offsetStore ++ [] := by
      simp [bplusTreeDeinit, bootFields, hfree₁, hfree₂, noFiles]
    change 0 ∈ loadFree (((bplusTreeDeinit (geometry 128) t₁
      { noFiles with data := t₁.file }).boot.getD []).drop (t₂.freeBlocks.length + 3)) _
    rw [htail, loadFree_append [0] _ [] (by norm_num)]
    exact List.mem_append_left _ (by decide)

end Small

end MqssdModel.BPlusTree.Sessions
