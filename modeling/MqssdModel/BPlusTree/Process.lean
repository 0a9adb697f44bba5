import MqssdModel.BPlusTree.GetRun
import MqssdModel.BPlusTree.RangeRun
import MqssdModel.BPlusTree.Sessions
import MqssdModel.Data.Interleave

namespace MqssdModel.BPlusTree.Process

open Data.Assoc Data.Interleave Data.TotalRun Machine Allocation Removal Descent Boot Lookup Put
  History GetRun RangeRun Reopen Sessions

/-- A call of the library on one index file. -/
inductive Call
  | init (blockSize : ℤ) (heap : Slot → Node)
  | put (key data : ℤ)
  | get (key : ℤ)
  | getRange (key1 key2 : ℤ) (behind : Behind)
  | deinit

inductive Answer
  | opened (ok : Bool)
  | value (x : ℤ)
  | closed
  deriving DecidableEq

/-- The files of an index and, while it is open, its tree. -/
structure Index where
  files : Files
  tree : Option Tree

/-- A call with the handle of the index. There is none before `bplus_tree_init`. -/
def onTree (f : M ℤ) (cf : Config) (x : Index) : Except Fault (Answer × Config × Index) :=
  match x.tree with
  | none => .error .nullPointer
  | some t =>
    match f t with
    | .error e => .error e
    | .ok (a, t') => .ok (.value a, cf, ⟨{ x.files with data := t'.file }, some t'⟩)

/-- A call on the index `filename`, with the static variables, which all indexes share. -/
def step (fuel : ℕ) (filename : String) (c : Call) (cf : Config) (x : Index) :
    Except Fault (Answer × Config × Index) :=
  match c with
  | .init blockSize heap =>
    match bplusTreeInit filename blockSize heap x.files cf with
    | (cf', some t) => .ok (.opened true, cf', ⟨x.files, some t⟩)
    | (cf', none) => .ok (.opened false, cf', x)
  | .put key data => onTree (bplusTreePut cf fuel key data) cf x
  | .get key => onTree (bplusTreeGet cf fuel key) cf x
  | .getRange key1 key2 behind =>
    onTree (bplusTreeGetRange cf (plain cf behind) fuel key1 key2) cf x
  | .deinit =>
    match x.tree with
    | none => .error .nullPointer
    | some t => .ok (.closed, cf, ⟨bplusTreeDeinit cf t x.files, none⟩)

/-- All indexes of a process by their names. -/
abbrev Indexes := World String Config Index

/-- `bplus_tree_init` refuses the arguments before it writes a static variable. -/
def Rejected (filename : String) (blockSize : ℤ) : Prop :=
  1024 ≤ filename.utf8ByteSize ∨ Int.land blockSize (blockSize - 1) ≠ 0 ∨ blockSize < nodeSize

variable {filename : String} {blockSize : ℤ} {heap : Slot → Node} {fs : Files} {cf c c₀ : Config}
  {x : Index} {fuel : ℕ}

section Handle

variable {f : M ℤ} {t t' : Tree} {a : ℤ} {e : Fault}

theorem onTree_ok (hx : x.tree = some t) (hf : f t = .ok (a, t')) : onTree f cf x =
    .ok (.value a, cf, ⟨{ x.files with data := t'.file }, some t'⟩) := by
  rw [onTree, hx]
  dsimp only
  rw [hf]

theorem onTree_error (hx : x.tree = some t) (hf : f t = .error e) : onTree f cf x = .error e := by
  rw [onTree, hx]
  dsimp only
  rw [hf]

end Handle

section Independence

/-- The block size in a boot file. -/
def storedSize (boot : BootFile) : ℤ := wrap 32 (offsetLoad (offsetLoad boot).2).1

theorem init_rejected (h : Rejected filename blockSize) :
    bplusTreeInit filename blockSize heap fs cf = (cf, none) := by
  unfold bplusTreeInit
  rcases h with h | h | h
  · rw [if_pos h]
  · rw [if_pos h, ite_self]
  · rw [if_pos h, ite_self, ite_self]

theorem not_rejected (h : ¬Rejected filename blockSize) : ¬filename.utf8ByteSize ≥ 1024 ∧
    ¬Int.land blockSize (blockSize - 1) ≠ 0 ∧ ¬blockSize < nodeSize := by
  simpa only [Rejected, not_or] using h

/-- The static variables that `bplus_tree_init` has found play no part in what it does if it
accepts the block size. -/
theorem init_congr (h : ¬Rejected filename blockSize) (c c₀ : Config) :
    bplusTreeInit filename blockSize heap fs c = bplusTreeInit filename blockSize heap fs c₀ := by
  obtain ⟨h₁, h₂, h₃⟩ := not_rejected h
  unfold bplusTreeInit
  rw [if_neg h₁, if_neg h₂, if_neg h₃, if_neg h₁, if_neg h₂, if_neg h₃]

theorem init_statics (h : ¬Rejected filename blockSize) :
    (bplusTreeInit filename blockSize heap fs c).1 = geometry blockSize ∨
      ∃ boot, fs.boot = some boot ∧
        (bplusTreeInit filename blockSize heap fs c).1 = geometry (storedSize boot) := by
  obtain ⟨h₁, h₂, h₃⟩ := not_rejected h
  unfold bplusTreeInit
  rw [if_neg h₁, if_neg h₂, if_neg h₃]
  split
  · exact Or.inl rfl
  · cases hboot : fs.boot with
    | none => exact Or.inl rfl
    | some boot => exact Or.inr ⟨boot, rfl, rfl⟩

/-- The call leaves the static variables as they are or at `cf`: it is no `bplus_tree_init` with
another block size, unless that is refused at once. -/
def Fits (cf : Config) (filename : String) : Call → Prop
  | .init blockSize _ => Rejected filename blockSize ∨ blockSize = cf.blockSize
  | _ => True

/-- Where an index has been saved, it was with the block size of `cf`. -/
def Matches (cf : Config) (x : Index) : Prop :=
  ∀ boot, x.files.boot = some boot → geometry (storedSize boot) = cf

/-- While the index is open, the static variables are `cf` in both processes. -/
def Same (cf : Config) (x : Index) (c c₀ : Config) : Prop :=
  Matches cf x ∧ (x.tree ≠ none → c = cf ∧ c₀ = cf)

theorem storedSize_cons (r b : List Char) (boot : BootFile) :
    storedSize (r :: b :: boot) = wrap 32 (strToHex b) := rfl

/-- The static variables are those of a block size. -/
structure Statics (cf : Config) : Prop where
  eq : cf = geometry cf.blockSize
  nonneg : 0 ≤ cf.blockSize
  lt : cf.blockSize < 2 ^ 31

theorem statics_init (hcf : Statics cf) (hfits : Fits cf filename (.init blockSize heap))
    (h : Matches cf x) (hr : ¬Rejected filename blockSize) (c : Config) :
    (bplusTreeInit filename blockSize heap x.files c).1 = cf := by
  rcases init_statics hr with hc | ⟨boot, hboot, hc⟩
  · rw [hc, hfits.resolve_left hr]
    exact hcf.eq.symm
  · rw [hc]
    exact h boot hboot

theorem matches_deinit (hcf : Statics cf) (t : Tree) (fs : Files) :
    Matches cf ⟨bplusTreeDeinit cf t fs, none⟩ := by
  intro boot hboot
  obtain rfl := Option.some.inj hboot
  rw [bootFields, List.cons_append, List.cons_append, storedSize_cons,
    strToHex_stored hcf.nonneg (hcf.lt.trans (by norm_num)), (wrap_int hcf.nonneg).mpr hcf.lt]
  exact hcf.eq.symm

theorem agree_init (hcf : Statics cf) (hfits : Fits cf filename (.init blockSize heap))
    (h : Same cf x c c₀) :
    Agree (Same cf) (step fuel filename (.init blockSize heap) c x)
      (step fuel filename (.init blockSize heap) c₀ x) := by
  rw [step, step]
  by_cases hr : Rejected filename blockSize
  · rw [init_rejected hr, init_rejected hr]
    exact .ok h
  · have hstatics := statics_init hcf hfits h.1 hr c
    rw [init_congr hr c₀ c]
    revert hstatics
    rcases bplusTreeInit filename blockSize heap x.files c with ⟨cf', t⟩
    rintro rfl
    cases t with
    | none => exact .ok ⟨h.1, fun _ ↦ ⟨rfl, rfl⟩⟩
    | some t => exact .ok ⟨h.1, fun _ ↦ ⟨rfl, rfl⟩⟩

theorem agree_onTree {f : Config → M ℤ} (h : Same cf x c c₀) :
    Agree (Same cf) (onTree (f c) c x) (onTree (f c₀) c₀ x) := by
  unfold onTree
  cases htree : x.tree with
  | none => exact .fail _
  | some t =>
    obtain ⟨hc, hc₀⟩ := h.2 (by simp [htree])
    subst hc hc₀
    dsimp only
    cases f c₀ t with
    | error e => exact .fail e
    | ok r => exact .ok ⟨h.1, fun _ ↦ ⟨rfl, rfl⟩⟩

theorem onTree_statics {f : M ℤ} {a : Answer} {z : Index} {c' : Config}
    (h : onTree f c x = .ok (a, c', z)) : c' = c := by
  unfold onTree at h
  split at h
  · cases h
  · split at h
    · cases h
    · cases h
      rfl

theorem step_statics {k : Call} {a : Answer} {z : Index} {c' : Config} (hfits : Fits cf filename k)
    (hcf : Statics cf) (hx : Matches cf x) (h : step fuel filename k c x = .ok (a, c', z)) :
    c' = c ∨ c' = cf := by
  cases k with
  | init blockSize heap =>
    rw [step] at h
    by_cases hr : Rejected filename blockSize
    · rw [init_rejected hr] at h
      cases h
      exact Or.inl rfl
    · right
      rw [← statics_init hcf hfits hx hr c]
      split at h
      · rename_i hinit
        cases h
        rw [hinit]
      · rename_i hinit
        cases h
        rw [hinit]
  | put key data => exact Or.inl (onTree_statics h)
  | get key => exact Or.inl (onTree_statics h)
  | getRange key1 key2 behind => exact Or.inl (onTree_statics h)
  | deinit =>
    left
    rw [step] at h
    split at h
    · cases h
    · cases h
      rfl

/-- What a call does to an index that is open depends on the static variables being `cf`, and to one
that is not open it does not depend on them. -/
theorem isolated (hcf : Statics cf) : Isolated (step fuel) (Fits cf) (Same cf) where
  own := by
    intro filename k x c c₀ hfits h
    cases k with
    | init blockSize heap => exact agree_init hcf hfits h
    | put key data => exact agree_onTree (f := fun c ↦ bplusTreePut c fuel key data) h
    | get key => exact agree_onTree (f := fun c ↦ bplusTreeGet c fuel key) h
    | getRange key1 key2 behind =>
      exact agree_onTree (f := fun c ↦ bplusTreeGetRange c (plain c behind) fuel key1 key2) h
    | deinit =>
      rw [step, step]
      cases htree : x.tree with
      | none => exact .fail _
      | some t =>
        obtain ⟨rfl, rfl⟩ := h.2 (by simp [htree])
        exact .ok ⟨matches_deinit hcf t x.files, fun hopen ↦ absurd rfl hopen⟩
  other := by
    intro filename k x y c c₀ c₁ c' a z hfits hy hx hstep
    refine ⟨hx.1, fun hopen ↦ ?_⟩
    obtain ⟨hc, hc₀⟩ := hx.2 hopen
    refine ⟨?_, hc₀⟩
    rcases step_statics hfits hcf hy.1 hstep with hc' | hc'
    · rw [hc', hc]
    · exact hc'

end Independence

section Two

/-- A process without an index. -/
def noIndex : Indexes := ⟨geometry 128, fun _ ↦ ⟨noFiles, none⟩⟩

theorem statics_small : Statics (geometry 128) := by
  obtain ⟨heq, hnonneg, hlt⟩ := statics_of_fresh fresh_small
  exact ⟨heq, hnonneg, hlt⟩

/-- The puts on one of two indexes, the other of which is opened between them. -/
def mixed : List (String × Call) :=
  [("index", .init 128 fun _ ↦ blank), ("index", .put 1 1), ("other", .init 128 fun _ ↦ blank),
    ("other", .put 1 2), ("index", .get 1), ("other", .deinit), ("index", .put 1 0)]

/-- Calls of `put` on one index as a part of a run. -/
theorem run_puts {i : String} {p : Indexes} {t t' : Tree} {ops : List (ℤ × ℤ)} {xs : List ℤ}
    (ht : (p.own i).tree = some t) (h : puts p.shared fuel ops t = .ok (xs, t')) :
    ∃ q, run (step fuel) (ops.map fun e ↦ (i, .put e.1 e.2)) p =
      .ok (xs.map fun x ↦ (i, .value x), q) := by
  induction ops generalizing p t xs with
  | nil =>
    cases h
    exact ⟨p, rfl⟩
  | cons op ops ih =>
    obtain ⟨key, data⟩ := op
    obtain ⟨x, t₁, hput, hrest⟩ := bind_eq_ok.mp h
    obtain ⟨ys, t₂, hputs, hpure⟩ := bind_eq_ok.mp hrest
    cases hpure
    have hnext : ((p.moved i p.shared ⟨{ (p.own i).files with data := t₁.file }, some t₁⟩).own
        i).tree = some t₁ := by rw [World.moved_own_self]
    obtain ⟨q, hq⟩ := ih hnext hputs
    exact ⟨q, run_cons_ok (onTree_ok ht hput) hq⟩

theorem run_puts_error {i : String} {p : Indexes} {t : Tree} {ops : List (ℤ × ℤ)} {e : Fault}
    (ht : (p.own i).tree = some t) (h : puts p.shared fuel ops t = .error e) :
    run (step fuel) (ops.map fun e ↦ (i, .put e.1 e.2)) p = .error e := by
  induction ops generalizing p t with
  | nil => cases h
  | cons op ops ih =>
    obtain ⟨key, data⟩ := op
    simp only [puts, bind, StateT.bind, Except.bind] at h
    cases hput : bplusTreePut p.shared fuel key data t with
    | error e' =>
      rw [hput] at h
      cases h
      exact run_cons_error (onTree_error ht hput)
    | ok r =>
      obtain ⟨x, t₁⟩ := r
      rw [hput] at h
      have hnext : ((p.moved i p.shared ⟨{ (p.own i).files with data := t₁.file }, some t₁⟩).own
          i).tree = some t₁ := by rw [World.moved_own_self]
      have hputs : puts p.shared fuel ops t₁ = .error e := by
        dsimp only at h
        split at h
        · rename_i e' he
          cases h
          exact he
        · cases h
      exact run_cons_rest_error (onTree_ok ht hput) (ih hnext hputs)

/-- The puts that `bplus_tree_init` on another index disturbs. -/
def disturbed : List (String × Call) :=
  ("index", .init 128 fun _ ↦ blank) :: ("other", .init 64 fun _ ↦ blank) ::
    [(1, 1), (2, 1), (4, 1), (3, 1), (1, 0)].map fun e ↦ ("index", .put e.1 e.2)

theorem init_index (c : Config) : step 9 "index" (.init 128 fun _ ↦ blank) c ⟨noFiles, none⟩ =
    .ok (.opened true, geometry 128, ⟨noFiles, some small⟩) := by
  rw [step, init_small]

theorem init_other (c : Config) : step 9 "other" (.init 64 fun _ ↦ blank) c ⟨noFiles, none⟩ =
    .ok (.opened false, geometry 64, ⟨noFiles, none⟩) := by
  have hinit : bplusTreeInit "other" 64 (fun _ ↦ blank) noFiles c = (geometry 64, none) := by
    unfold bplusTreeInit
    rw [if_neg (by decide), if_neg (by decide), if_neg (by decide), if_pos (by decide)]
  rw [step, hinit]

/-- Blocks of 64 bytes are too small for a tree, and `bplus_tree_init` returns NULL. The tree that
is open goes on with them, and a removal fails that does not fail with blocks of 128 bytes. -/
theorem init_disturbs : run (step 9) disturbed noIndex = .error .nullPointer ∧
    ∃ as q, run (step 9) (only "index" disturbed) noIndex = .ok (as, q) := by
  have hcf : geometry 128 = ⟨128, 7, 7⟩ := by decide
  have hcf' : geometry 64 = ⟨64, 2, 2⟩ := by decide
  constructor
  · have hfail : fails (puts ⟨64, 2, 2⟩ 9 [(1, 1), (2, 1), (4, 1), (3, 1), (1, 0)]) small
        .nullPointer = true := by decide +kernel
    refine run_cons_rest_error (init_index _) (run_cons_rest_error (init_other _) ?_)
    refine run_puts_error (t := small) ?_ ?_
    · rw [World.moved_own_of_ne (by decide), World.moved_own_self]
    · rw [← hcf'] at hfail
      exact error_of_fails hfail
  · have heval : ends (puts ⟨128, 7, 7⟩ 9 [(1, 1), (2, 1), (4, 1), (3, 1), (1, 0)]) small
        (fun _ _ ↦ true) = true := by decide +kernel
    rw [← hcf] at heval
    obtain ⟨xs, t', hrun, -⟩ := runs_of_ends heval
    have honly : only "index" disturbed = ("index", .init 128 fun _ ↦ blank) ::
        [((1 : ℤ), (1 : ℤ)), (2, 1), (4, 1), (3, 1), (1, 0)].map
          fun e ↦ ("index", .put e.1 e.2) := rfl
    have hputs : ∃ q, run (step 9) ([((1 : ℤ), (1 : ℤ)), (2, 1), (4, 1), (3, 1), (1, 0)].map
        fun e ↦ ("index", .put e.1 e.2))
        (noIndex.moved "index" (geometry 128) ⟨noFiles, some small⟩) = _ :=
      run_puts (by rw [World.moved_own_self]) hrun
    obtain ⟨q, hq⟩ := hputs
    exact ⟨_, q, honly ▸ run_cons_ok (init_index _) hq⟩

end Two

section Refinement

/-- A block size that `bplus_tree_init` accepts. -/
structure Usable (cf : Config) : Prop extends Statics cf where
  power : Int.land cf.blockSize (cf.blockSize - 1) = 0
  node : nodeSize ≤ cf.blockSize
  order : 2 < cf.maxOrder

/-- What a call does to the map of its index. Of a range only that it changes nothing. -/
def Does (m : Table) : Call → Answer → Table → Prop
  | .init _ _, .opened _, m' => m' = m
  | .put k v, .value x, m' => (x, m') = m.put k v
  | .get k, .value x, m' => x = answer (m k) ∧ m' = m
  | .getRange _ _ _, .value _, m' => m' = m
  | .deinit, .closed, m' => m' = m
  | _, _, _ => False

/-- The answers are those of a map for each index. -/
inductive Behaves : (String → Table) → List (String × Call) → List (String × Answer) → Prop
  | nil (m : String → Table) : Behaves m [] []
  | cons {m : String → Table} {i : String} {k : Call} {a : Answer} {m' : Table}
      {calls : List (String × Call)} {as : List (String × Answer)} :
      Does (m i) k a m' → Behaves (Function.update m i m') calls as →
      Behaves m ((i, k) :: calls) ((i, a) :: as)

/-- Whether an index is open before and after a call. An index is opened once at a time, and no call
uses a handle that does not exist. -/
inductive Moves (cf : Config) (i : String) : Bool → Call → Bool → Prop
  | refuse {o : Bool} {blockSize : ℤ} {heap : Slot → Node} :
      Rejected i blockSize → Moves cf i o (.init blockSize heap) o
  | init {heap : Slot → Node} :
      i.utf8ByteSize < 1024 → Moves cf i false (.init cf.blockSize heap) true
  | put {key data : ℤ} : Moves cf i true (.put key data) true
  | get {key : ℤ} : Moves cf i true (.get key) true
  | getRange {key1 key2 : ℤ} {behind : Behind} : Moves cf i true (.getRange key1 key2 behind) true
  | deinit : Moves cf i true .deinit false

inductive Legal (cf : Config) : (String → Bool) → List (String × Call) → Prop
  | nil (o : String → Bool) : Legal cf o []
  | cons {o : String → Bool} {i : String} {k : Call} {o' : Bool} {calls : List (String × Call)} :
      Moves cf i (o i) k o' → Legal cf (Function.update o i o') calls → Legal cf o ((i, k) :: calls)

/-- Whenever an index is closed, its boot file has no more free blocks in it than are written. -/
def Careful (fuel : ℕ) (calls : List (String × Call)) (p : Indexes) : Prop :=
  ∀ pre i post as q t, calls = pre ++ (i, .deinit) :: post → run (step fuel) pre p = .ok (as, q) →
    (q.own i).tree = some t → Overwrites (q.own i).files t

/-- An index that is open holds the entries `m`, and one that is not open will do so. -/
def Serves (cf : Config) (i : String) (o : Bool) (x : Index) (m : List (ℤ × ℤ)) : Prop :=
  match x.tree with
  | some t => o = true ∧ ∃ d, Stands cf t m d
  | none => o = false ∧ ∀ heap c, i.utf8ByteSize < 1024 → ∃ t d,
      bplusTreeInit i cf.blockSize heap x.files c = (cf, some t) ∧ Stands cf t m d

variable {i : String} {o o' : Bool} {m : List (ℤ × ℤ)} {k : Call} {t : Tree} {d : ℤ}

theorem Usable.acceptable (h : Usable cf) (hname : i.utf8ByteSize < 1024) :
    Acceptable i cf.blockSize :=
  ⟨hname, h.power, h.node, h.eq ▸ h.order⟩

theorem Usable.sized (h : Usable cf) : Sized cf := by
  rw [h.eq]
  exact sized_geometry h.lt h.power h.node (h.eq ▸ h.order)

theorem serves_new (h : Usable cf) : Serves cf i false ⟨noFiles, none⟩ [] := by
  refine ⟨rfl, fun heap c hname ↦ ?_⟩
  have ha := h.acceptable hname
  have hinit : bplusTreeInit i cf.blockSize heap noFiles c = (cf, some
      ⟨heap, fun _ ↦ false, fun _ ↦ 0, 0, invalidOffset, 0, [], noFiles.data⟩) := by
    unfold bplusTreeInit
    rw [if_neg (Nat.not_le.mpr ha.name), if_neg (not_not.mpr ha.power),
      if_neg (not_lt.mpr ha.node), if_neg (not_le.mpr ha.order), ← h.eq]
    rfl
  have hfresh : Fresh cf _ := ⟨i, cf.blockSize, heap, c, h.lt, hinit⟩
  exact ⟨_, 1, hinit, hfresh.stands⟩

theorem serves_deinit (h : Usable cf) (hstands : Stands cf t m d) (hover : Overwrites fs t) :
    Serves cf i false ⟨bplusTreeDeinit cf t fs, none⟩ m := by
  refine ⟨rfl, fun heap c hname ↦ ?_⟩
  have hboot := bootable_of_stands h.sized h.eq h.lt hstands hover.size
  have hfree : t.freeBlocks.map (wrap 32) = t.freeBlocks :=
    (List.map_congr_left fun o ho ↦ (wrap_int (hboot.free o ho).1).mpr (hover.free o ho)).trans
      (List.map_id _)
  have hback : ∃ d', Stands cf (reopened heap t) m d' := stands_reopened hstands hfree
  obtain ⟨d', hback⟩ := hback
  exact ⟨_, d', init_deinit (h.acceptable hname) hboot hover.tail, hback⟩

theorem stands_still {t' : Tree} (h : Stands cf t m d) (hstill : Still t t') :
    Stands cf t' m d := by
  obtain ⟨st, hrep, hholds⟩ := h
  exact ⟨st, hstill.rep hrep, hholds⟩

/-- What a call leads to that goes as it does on the map. -/
def Advances (cf : Config) (fuel : ℕ) (i : String) (k : Call) (c : Config) (x : Index)
    (m : List (ℤ × ℤ)) (o' : Bool) : Prop :=
  ∃ a c' x' m', step fuel i k c x = .ok (a, c', x') ∧ Does (table m) k a (table m') ∧
    Serves cf i o' x' m' ∧ (c' = c ∨ c' = cf) ∧ (o' = true → c' = cf) ∧ m'.length ≤ m.length + 1

theorem onTree_advances {f : M ℤ} (hx : x.tree = some t) (hk : step fuel i k cf x = onTree f cf x)
    (h : Runs f t fun a t' ↦ ∃ m' d', Stands cf t' m' d' ∧ m'.length ≤ m.length + 1 ∧
      Does (table m) k (.value a) (table m')) :
    Advances cf fuel i k cf x m true := by
  obtain ⟨a, t', hrun, m', d', hstands, hlen, hdoes⟩ := h
  exact ⟨.value a, cf, ⟨{ x.files with data := t'.file }, some t'⟩, m',
    hk.trans (onTree_ok hx hrun), hdoes, ⟨rfl, d', hstands⟩, Or.inl rfl, fun _ ↦ rfl, hlen⟩

theorem step_advances (hcf : Usable cf) (hmove : Moves cf i o k o') (hx : Serves cf i o x m)
    (hc : o = true → c = cf) (hfuel : m.length < fuel)
    (hover : ∀ t, k = .deinit → x.tree = some t → Overwrites x.files t) :
    Advances cf fuel i k c x m o' := by
  have hopen : o = true → ∃ t d, x.tree = some t ∧ Stands cf t m d := by
    intro ho
    rw [Serves] at hx
    split at hx
    · rename_i t ht
      obtain ⟨-, d, hstands⟩ := hx
      exact ⟨t, d, ht, hstands⟩
    · exact absurd (ho.symm.trans hx.1) (by decide)
  cases hmove with
  | refuse hr =>
    refine ⟨.opened false, c, x, m, ?_, rfl, hx, Or.inl rfl, hc, Nat.le_succ _⟩
    rw [step, init_rejected hr]
  | @init heap hname =>
    rw [Serves] at hx
    split at hx
    · exact absurd hx.1 (by decide)
    · obtain ⟨t, d, hinit, hstands⟩ := hx.2 heap c hname
      refine ⟨.opened true, cf, ⟨x.files, some t⟩, m, ?_, rfl, ⟨rfl, d, hstands⟩, Or.inr rfl,
        fun _ ↦ rfl, Nat.le_succ _⟩
      rw [step, hinit]
  | @put key data =>
    obtain rfl := hc rfl
    obtain ⟨t, d, ht, hstands⟩ := hopen rfl
    refine onTree_advances ht rfl ((put_follows hcf.sized hstands hfuel).mono ?_)
    rintro a t' ⟨m', d', hf, htable, -⟩
    exact ⟨m', d', hf.stands, hf.length, htable⟩
  | @get key =>
    obtain rfl := hc rfl
    obtain ⟨t, d, ht, hstands⟩ := hopen rfl
    refine onTree_advances ht rfl ((get_run hcf.sized hstands hfuel).mono ?_)
    rintro a t' ⟨hstill, ha⟩
    exact ⟨m, d, stands_still hstands hstill, Nat.le_succ _, ha, rfl⟩
  | @getRange key1 key2 behind =>
    obtain rfl := hc rfl
    obtain ⟨t, d, ht, hstands⟩ := hopen rfl
    refine onTree_advances ht rfl ((getRange_still hcf.sized hstands hfuel).mono ?_)
    intro a t' hstill
    exact ⟨m, d, stands_still hstands hstill, Nat.le_succ _, rfl⟩
  | deinit =>
    obtain rfl := hc rfl
    obtain ⟨t, d, ht, hstands⟩ := hopen rfl
    refine ⟨.closed, c, ⟨bplusTreeDeinit c t x.files, none⟩, m, ?_, rfl,
      serves_deinit hcf hstands (hover t rfl ht), Or.inl rfl, fun _ ↦ rfl, Nat.le_succ _⟩
    rw [step, ht]

/-- What has to be known of all indexes between two calls. -/
structure Served (cf : Config) (o : String → Bool) (p : Indexes) (ms : String → List (ℤ × ℤ)) :
    Prop where
  serves : ∀ i, Serves cf i (o i) (p.own i) (ms i)
  statics : ∀ i, o i = true → p.shared = cf

theorem Served.moved {os : String → Bool} {p : Indexes} {ms : String → List (ℤ × ℤ)} {c' : Config}
    {x' : Index} {m' : List (ℤ × ℤ)} (h : Served cf os p ms) (hx : Serves cf i o' x' m')
    (hc : c' = p.shared ∨ c' = cf) (ho : o' = true → c' = cf) :
    Served cf (Function.update os i o') (p.moved i c' x') (Function.update ms i m') := by
  refine ⟨fun j ↦ ?_, fun j hj ↦ ?_⟩
  · by_cases hji : j = i
    · subst hji
      rw [Function.update_self, Function.update_self, World.moved_own_self]
      exact hx
    · rw [Function.update_of_ne hji, Function.update_of_ne hji, World.moved_own_of_ne hji]
      exact h.serves j
  · by_cases hji : j = i
    · subst hji
      rw [Function.update_self] at hj
      exact ho hj
    · rw [Function.update_of_ne hji] at hj
      rcases hc with hc | hc
      · exact hc.trans (h.statics j hj)
      · exact hc

theorem careful_tail {calls : List (String × Call)} {p : Indexes} {a : Answer} {c' : Config}
    {x' : Index} (hstep : step fuel i k p.shared (p.own i) = .ok (a, c', x'))
    (h : Careful fuel ((i, k) :: calls) p) : Careful fuel calls (p.moved i c' x') := by
  intro pre j post as q t heq hrun ht
  exact h ((i, k) :: pre) j post ((i, a) :: as) q t (by rw [heq]; rfl) (run_cons_ok hstep hrun) ht

theorem run_behaves (hcf : Usable cf) {calls : List (String × Call)} {os : String → Bool}
    {p : Indexes} {ms : String → List (ℤ × ℤ)} (hserved : Served cf os p ms)
    (hlegal : Legal cf os calls) (hcareful : Careful fuel calls p)
    (hfuel : ∀ i, (ms i).length + calls.length ≤ fuel) :
    ∃ as p', run (step fuel) calls p = .ok (as, p') ∧ Behaves (fun i ↦ table (ms i)) calls as := by
  induction calls generalizing os p ms with
  | nil => exact ⟨[], p, rfl, .nil _⟩
  | cons call calls ih =>
    cases hlegal with
    | @cons _ i k o' _ hmove hrest =>
      have hlt : (ms i).length < fuel := by
        have hle := hfuel i
        rw [List.length_cons] at hle
        omega
      obtain ⟨a, c', x', m', hstep, hdoes, hserves, hc, ho, hlen⟩ :=
        step_advances hcf hmove (hserved.serves i) (hserved.statics i) hlt fun t hk ht ↦
          hcareful [] i calls [] p t (by rw [hk]; rfl) rfl ht
      have hnext := hserved.moved hserves hc ho
      obtain ⟨as, p', hrun, hbehaves⟩ := ih hnext hrest (careful_tail hstep hcareful) (fun j ↦ by
        have hle := hfuel j
        rw [List.length_cons] at hle
        by_cases hji : j = i
        · subst hji
          rw [Function.update_self]
          omega
        · rw [Function.update_of_ne hji]
          omega)
      refine ⟨(i, a) :: as, p', run_cons_ok hstep hrun, .cons hdoes ?_⟩
      have hmaps : (fun j ↦ table (Function.update ms i m' j)) =
          Function.update (fun j ↦ table (ms j)) i (table m') := by
        funext j
        by_cases hji : j = i
        · subst hji
          rw [Function.update_self, Function.update_self]
        · rw [Function.update_of_ne hji, Function.update_of_ne hji]
      exact hmaps ▸ hbehaves

end Refinement

section Small

theorem usable_small : Usable (geometry 128) :=
  ⟨statics_small, acceptable_small.power, acceptable_small.node, acceptable_small.order⟩

/-- One of two indexes is closed and opened again. -/
def reopening : List (String × Call) :=
  [("index", .init 128 fun _ ↦ blank), ("index", .deinit), ("index", .init 128 fun _ ↦ blank),
    ("other", .init 128 fun _ ↦ blank), ("other", .put 1 2), ("index", .get 1)]

theorem legal_reopening : Legal (geometry 128) (fun _ ↦ false) reopening :=
  .cons (.init (by decide)) (.cons .deinit (.cons (.init (by decide)) (.cons (.init (by decide))
    (.cons .put (.cons .get (.nil _))))))

theorem careful_reopening : Careful 9 reopening noIndex := by
  intro pre i post as q t hcalls hrun ht
  -- the only `deinit` comes right after the first `init`
  rcases pre with _ | ⟨e, pre⟩
  · exact absurd (List.cons.inj hcalls).1 (by simp)
  obtain ⟨rfl, htail⟩ := List.cons.inj hcalls
  rcases pre with _ | ⟨e, pre⟩
  · obtain ⟨rfl, -⟩ := Prod.mk.inj (List.cons.inj htail).1
    cases hrun.symm.trans (run_cons_ok (init_index _) rfl)
    rw [World.moved_own_self] at ht ⊢
    cases ht
    exact ⟨Nat.zero_le _, by simp [small], by simp [small]⟩
  · have hmem : (i, Call.deinit) ∈ pre ++ (i, .deinit) :: post := by simp
    have hrest : _ = pre ++ (i, .deinit) :: post := (List.cons.inj htail).2
    rw [← hrest] at hmem
    simp at hmem

end Small

end MqssdModel.BPlusTree.Process
