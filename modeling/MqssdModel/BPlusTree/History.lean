import MqssdModel.BPlusTree.Boot
import MqssdModel.BPlusTree.Put
import MqssdModel.Data.Assoc

namespace MqssdModel.BPlusTree.History

open Data.Assoc Data.Rows Data.TotalRun Machine Caching Removal Views Shape Allocation Ordering
  Descent LeafLevel LeafInsert LeafRemove Boot Put

/-- What the index is for: a finite map, from which `put` with the value 0 removes a key. -/
abbrev Table := ℤ → Option ℤ

def Table.put (m : Table) (k v : ℤ) : ℤ × Table :=
  if v ≠ 0 then
    if m k = none then (0, Function.update m k (some v)) else (-1, m)
  else if m k = none then (-1, m) else (0, Function.update m k none)

def Table.puts (m : Table) : List (ℤ × ℤ) → List ℤ × Table
  | [] => ([], m)
  | (k, v) :: ops =>
    let (xs, m') := Table.puts (m.put k v).2 ops
    ((m.put k v).1 :: xs, m')

def puts (cf : Config) (fuel : ℕ) : List (ℤ × ℤ) → M (List ℤ)
  | [] => return []
  | (k, v) :: ops => do
    let x ← bplusTreePut cf fuel k v
    let xs ← puts cf fuel ops
    return x :: xs

/-- The tree `t` has been opened on an index that did not exist. -/
def Fresh (cf : Config) (t : Tree) : Prop :=
  ∃ filename blockSize heap cf₀, blockSize < 2 ^ 31 ∧
    bplusTreeInit filename blockSize heap noFiles cf₀ = (cf, some t)

/-- Between two calls, `t` is the tree of the entries `m`. -/
def Stands (cf : Config) (t : Tree) (m : List (ℤ × ℤ)) (d : ℤ) : Prop :=
  ∃ st, Rep t st [] ∧ Holds cf st m d

/-- What at most `n` calls of `put` make of the tree `t` of the entries `m`. -/
structure Follows (cf : Config) (n : ℕ) (t : Tree) (m : List (ℤ × ℤ)) (d : ℤ) (t' : Tree)
    (m' : List (ℤ × ℤ)) (d' : ℤ) : Prop where
  stands : Stands cf t' m' d'
  length : m'.length ≤ m.length + n
  depth : d' = d ∨ d' = 1
  size : Longer cf (n * (m.length + n)) t.fileSize t'.fileSize

variable {cf : Config} {t t' : Tree} {st : Store} {m m' : List (ℤ × ℤ)} {d d' k v : ℤ} {n : ℕ}
  {ops : List (ℤ × ℤ)} {fuel : ℕ}

theorem Holds.sorted (h : Holds cf st m d) : (m.map Prod.fst).Pairwise (· < ·) := by
  rcases h with ⟨rfl, -⟩ | ⟨w, us, h, rfl⟩
  · exact List.Pairwise.nil
  · exact h.ordered.entries (Leaves.lengths h.leaves)

theorem Holds.nodup (h : Holds cf st m d) : (m.map Prod.fst).Nodup :=
  (Holds.sorted h).imp fun hlt ↦ hlt.ne

theorem table_put_inserted (hv : v ≠ 0) (hk : k ∉ m.map Prod.fst) (h : Inserted k v m m') :
    (0, table m') = Table.put (table m) k v := by
  obtain ⟨m₁, m₂, rfl, rfl⟩ := h
  rw [Table.put, if_pos hv, if_pos (table_eq_none.mpr hk), table_insert hk]

theorem table_put_removed (hn : (m.map Prod.fst).Nodup) (h : Removed k m m') :
    (0, table m') = Table.put (table m) k 0 := by
  obtain ⟨m₁, v, m₂, rfl, rfl⟩ := h
  have hk : table (m₁ ++ (k, v) :: m₂) k ≠ none := by
    rw [ne_eq, table_eq_none]
    simp
  rw [Table.put, if_neg (by simp), if_neg hk, table_remove hn]

theorem table_put_refused (h : v ≠ 0 ↔ k ∈ m.map Prod.fst) :
    (-1, table m) = Table.put (table m) k v := by
  unfold Table.put
  by_cases hv : v ≠ 0
  · rw [if_pos hv, if_neg fun hn ↦ table_eq_none.mp hn (h.mp hv)]
  · rw [if_neg hv, if_pos (table_eq_none.mpr fun hk ↦ hv (h.mpr hk))]

/-- One call does what it does to the map, and refuses without a trace. -/
theorem put_follows (hcf : Sized cf) (h : Stands cf t m d) (hfuel : m.length < fuel) :
    Runs (bplusTreePut cf fuel k v) t fun x t' ↦ ∃ m' d', Follows cf 1 t m d t' m' d' ∧
      (x, table m') = Table.put (table m) k v ∧ (x = -1 → Still t t') := by
  obtain ⟨st, hrep, hholds⟩ := h
  refine (put_run hcf hholds hrep hfuel).mono ?_
  rintro x t' (⟨rfl, hk, hstill⟩ | ⟨rfl, hk, st', m', d', hrep', hholds', hd, hsize, hins, hrem⟩)
  · refine ⟨m, d, ⟨⟨st, hstill.rep hrep, hholds⟩, by omega, Or.inl rfl,
      longer_of_eq _ hstill.fileSize⟩,
      table_put_refused hk, fun _ ↦ hstill⟩
  · by_cases hv : v ≠ 0
    · have hi := hins hv
      have hlen : m'.length ≤ m.length + 1 := by
        obtain ⟨m₁, m₂, rfl, rfl⟩ := id hi
        simp only [List.length_append, List.length_cons]
        omega
      exact ⟨m', d', ⟨⟨st', hrep', hholds'⟩, hlen, hd, hsize.mono (by omega)⟩,
        table_put_inserted hv (hk.mp hv) hi, by simp⟩
    · obtain rfl := not_not.mp hv
      have hr := hrem rfl
      have hlen : m'.length ≤ m.length + 1 := by
        obtain ⟨m₁, v, m₂, rfl, rfl⟩ := id hr
        simp only [List.length_append, List.length_cons]
        omega
      exact ⟨m', d', ⟨⟨st', hrep', hholds'⟩, hlen, hd, hsize.mono (by omega)⟩,
        table_put_removed (Holds.nodup hholds) hr, by simp⟩

theorem Follows.trans {n' : ℕ} {t'' : Tree} {m'' : List (ℤ × ℤ)} {d'' : ℤ}
    (h : Follows cf n t m d t' m' d') (h' : Follows cf n' t' m' d' t'' m'' d'') :
    Follows cf (n + n') t m d t'' m'' d'' := by
  have hlen := h.length
  have hlen' := h'.length
  have hd := h.depth
  have hd' := h'.depth
  refine ⟨h'.stands, by omega, by omega, (h.size.trans h'.size).mono ?_⟩
  calc n * (m.length + n) + n' * (m'.length + n')
      ≤ n * (m.length + (n + n')) + n' * (m.length + (n + n')) :=
        Nat.add_le_add (Nat.mul_le_mul_left n (by omega)) (Nat.mul_le_mul_left n' (by omega))
    _ = (n + n') * (m.length + (n + n')) := (Nat.add_mul _ _ _).symm

theorem puts_follow (hcf : Sized cf) (h : Stands cf t m d)
    (hfuel : m.length + ops.length ≤ fuel) :
    Runs (puts cf fuel ops) t fun xs t' ↦ ∃ m' d', Follows cf ops.length t m d t' m' d' ∧
      (xs, table m') = Table.puts (table m) ops := by
  induction ops generalizing t m d with
  | nil => exact runs_pure ⟨m, d, ⟨h, le_rfl, Or.inl rfl, longer_of_eq _ rfl⟩, rfl⟩
  | cons op ops ih =>
    obtain ⟨k, v⟩ := op
    rw [List.length_cons] at hfuel
    refine (put_follows hcf h (by omega)).seq ?_
    rintro x t₁ ⟨m₁, d₁, hf₁, htable, -⟩
    have hlen := hf₁.length
    refine (ih hf₁.stands (by omega)).seq ?_
    rintro xs t₂ ⟨m₂, d₂, hf₂, htables⟩
    refine runs_pure ⟨m₂, d₂, ?_, ?_⟩
    · rw [List.length_cons, Nat.add_comm]
      exact hf₁.trans hf₂
    · rw [Table.puts, ← htable, ← htables]

theorem Fresh.sized (h : Fresh cf t) : Sized cf := by
  obtain ⟨filename, blockSize, heap, cf₀, hlt, h⟩ := h
  obtain ⟨hland, hsize, horder⟩ := accepted h
  have hs := sized_geometry hlt hland hsize horder
  unfold bplusTreeInit at h
  split_ifs at h with h₁ h₂ h₃ h₄
  all_goals cases h
  exact hs

theorem Fresh.stands (h : Fresh cf t) : Stands cf t [] 1 := by
  have hcf := h.sized
  obtain ⟨filename, blockSize, heap, cf₀, hlt, h⟩ := h
  unfold bplusTreeInit at h
  split_ifs at h with h₁ h₂ h₃ h₄
  all_goals cases h
  refine ⟨⟨fun _ ↦ none, invalidOffset, 0, 0, []⟩, ⟨fun _ ↦ rfl, ?_, rfl, rfl, rfl, rfl,
    List.nodup_nil, ?_, ?_, ?_⟩, Or.inl ⟨rfl, rfl, rfl, ⟨List.nodup_nil, ?_, Int.dvd_zero _,
      le_rfl⟩, rfl⟩⟩
  · exact fun o b hb ↦ absurd hb (by simp)
  · exact fun i ↦ by simp
  · exact fun p hp ↦ absurd hp List.not_mem_nil
  · exact fun p hp ↦ absurd hp List.not_mem_nil
  · intro o
    constructor
    · exact fun ho ↦ absurd ho List.not_mem_nil
    · rintro ⟨h₀, hlt, -⟩
      exact absurd (h₀.trans_lt hlt) (lt_irrefl 0)

/-- Every sequence of calls on a new index ends, with the map it makes. -/
theorem reached (h : Fresh cf t) (hfuel : ops.length ≤ fuel) :
    Runs (puts cf fuel ops) t fun xs t' ↦ ∃ m, Stands cf t' m 1 ∧ m.length ≤ ops.length ∧
      (xs, table m) = Table.puts (fun _ ↦ none) ops := by
  have hlen : ([] : List (ℤ × ℤ)).length + ops.length ≤ fuel := by simpa using hfuel
  refine (puts_follow h.sized h.stands hlen).mono ?_
  rintro xs t' ⟨m, d, hf, htables⟩
  obtain rfl : d = 1 := hf.depth.elim id id
  exact ⟨m, hf.stands, by simpa using hf.length, htables⟩

/-- A test of how a program ends, to be evaluated. -/
def ends {α : Type} (f : M α) (t : Tree) (p : α → Tree → Bool) : Bool :=
  match f t with
  | .ok (a, t') => p a t'
  | .error _ => false

theorem runs_of_ends {α : Type} {f : M α} {p : α → Tree → Bool} (h : ends f t p = true) :
    Runs f t fun a t' ↦ p a t' = true := by
  unfold ends at h
  split at h
  · exact ⟨_, _, ‹_›, h⟩
  · cases h

/-- A node cache before its first use. -/
def blank : Node := ⟨0, 0, 0, 0, .leaf, 0, fun _ ↦ 0, fun _ ↦ 0, fun _ ↦ 0⟩

/-- A new index with blocks of 128 bytes, which take 7 entries or 7 children. -/
def small : Tree := ⟨fun _ ↦ blank, fun _ ↦ false, fun _ ↦ 0, 0, invalidOffset, 0, [], fun _ ↦ none⟩

theorem fresh_small : Fresh (geometry 128) small := by
  refine ⟨"index", 128, fun _ ↦ blank, geometry 128, by norm_num, ?_⟩
  unfold bplusTreeInit
  rw [if_neg (by decide), if_neg (by decide), if_neg (by decide), if_neg (by decide)]
  rfl

end MqssdModel.BPlusTree.History
