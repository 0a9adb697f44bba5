import Mathlib.Data.Finset.Basic
import MqssdModel.BPlusTree.GetRun
import MqssdModel.Data.PackedBits

namespace MqssdModel.BPlusTree.Coverage

open Data.Assoc Data.PackedBits Data.TotalRun Machine Removal Allocation Boot Lookup History
  Reading Descent GetRun

section Scanning

/-- `isspace` -/
def isspace (c : Char) : Bool := c = ' ' || (9 ≤ c.toNat && c.toNat ≤ 13)

/-- The sign in front of a number. -/
def sign : List Char → Bool × List Char
  | '-' :: input => (true, input)
  | '+' :: input => (false, input)
  | input => (false, input)

/-- The value of `strtol`, kept within the values of a `long`. -/
def strtol (negative : Bool) (digits : List Char) : ℤ :=
  let n : ℤ := Nat.ofDigitChars 10 digits 0
  if negative then max (-n) (-2 ^ 63) else min n (2 ^ 63 - 1)

/-- The conversion `%d`: the number, if there is one, and what is left of the input. -/
def scanInt (input : List Char) : Option ℤ × List Char :=
  let (negative, input) := sign (input.dropWhile isspace)
  let digits := input.takeWhile Char.isDigit
  if digits = [] then (none, input)
  else (some (wrap 32 (strtol negative digits)), input.dropWhile Char.isDigit)

/-- `fscanf(fp, " %c %d", &op, &k)`, with `none` for `EOF`. Where there is no number, `k` is not
assigned. -/
def fscanf (input : List Char) : Option (Char × Option ℤ × List Char) :=
  match input.dropWhile isspace with
  | [] => none
  | op :: rest =>
    let (k, rest) := scanInt (rest.dropWhile isspace)
    some (op, k, rest)

theorem length_sign (input : List Char) : (sign input).2.length ≤ input.length := by
  unfold sign
  split <;> simp

theorem length_scanInt (input : List Char) : (scanInt input).2.length ≤ input.length := by
  have hsign := length_sign (input.dropWhile isspace)
  have hspace := (List.dropWhile_suffix isspace (l := input)).length_le
  unfold scanInt
  dsimp only
  split_ifs
  · exact hsign.trans hspace
  · exact (List.dropWhile_suffix _).length_le.trans (hsign.trans hspace)

/-- A scan that is not the last one takes a character at least. -/
theorem length_fscanf {input rest : List Char} {op : Char} {k : Option ℤ}
    (h : fscanf input = some (op, k, rest)) : rest.length < input.length := by
  have hspace := (List.dropWhile_suffix isspace (l := input)).length_le
  unfold fscanf at h
  cases hinput : input.dropWhile isspace with
  | nil =>
    rw [hinput] at h
    cases h
  | cons c cs =>
    rw [hinput] at h hspace
    have hint := length_scanInt (cs.dropWhile isspace)
    have hspace' := (List.dropWhile_suffix isspace (l := cs)).length_le
    simp only [Option.some.injEq, Prod.mk.injEq] at h
    obtain ⟨-, -, rfl⟩ := h
    rw [List.length_cons] at hspace
    omega

end Scanning

section Program

/-- The state of the test: the tree, `huge_array`, the counters and `got`. -/
structure Bench where
  tree : Tree
  hugeArray : ℕ → UInt8
  validIns : ℕ
  validQuery : ℕ
  validDel : ℕ
  got : Bool

/-- The ways for the test to end early. The first one is a message on `stderr`: what was done,
the key and what is wrong. -/
inductive Stop
  | report (what : String) (k : ℤ) (why : String)
  | assertion
  | outOfBounds
  | uninitialised
  | tree (e : Fault)
  | fuel
  deriving DecidableEq

abbrev T := StateT Bench (Except Stop)

def testKey : ℤ := 0

/-- `INT_MAX >> 3` -/
def hugeSize : ℤ := 268435455

/-- The index of a bit in `huge_array`. -/
def place (k : ℤ) : T ℕ :=
  if 0 ≤ k / 8 ∧ k / 8 < hugeSize then return k.toNat else throw .outOfBounds

def onTree {α : Type} (f : M α) : T α := fun b ↦
  match f b.tree with
  | .ok (a, t) => .ok (a, { b with tree := t })
  | .error e => .error (.tree e)

def incr (n : ℕ) : ℕ := (n + 1) % 2 ^ 32

def insertCase (cf : Config) (fuel : ℕ) (k : ℤ) : T Unit := do
  let i ← place k
  let exist := lowBit (← get).hugeArray i
  modify fun b ↦ if exist then b else { b with hugeArray := setLowBit b.hugeArray i }
  let x ← onTree (bplusTreePut cf fuel k k)
  if x = 0 then
    modify fun b ↦ { b with validIns := incr b.validIns, got := b.got || decide (k = testKey) }
    if exist then throw (.report "insert" k "has been inserted before") else return
  else if exist then return else throw (.report "insert" k "could be inserted")

def searchCase (cf : Config) (fuel : ℕ) (k : ℤ) : T Unit := do
  let i ← place k
  let exist := lowBit (← get).hugeArray i
  let ret ← onTree (bplusTreeGet cf fuel k)
  if ret ≠ -1 then
    modify fun b ↦ { b with validQuery := incr b.validQuery }
    if exist then
      if ret = k then return else throw .assertion
    else throw (.report "search" k "found but not exists")
  else if exist then throw (.report "search" k "exists but not found") else return

def removeCase (cf : Config) (fuel : ℕ) (k : ℤ) : T Unit := do
  let i ← place k
  let exist := lowBit (← get).hugeArray i
  modify fun b ↦ if exist then { b with hugeArray := clearLowBit b.hugeArray i } else b
  let x ← onTree (bplusTreePut cf fuel k 0)
  if x = 0 then
    modify fun b ↦
      { b with validDel := incr b.validDel, got := b.got && !decide (k = testKey) }
    if exist then return else throw (.report "delete" k "deleted but not found")
  else if exist then throw (.report "delete" k "found but not deleted") else return

/-- The use of `k`, which has no value before the first number is read. -/
def value : Option ℤ → T ℤ
  | some k => return k
  | none => throw .uninitialised

def execOp (cf : Config) (fuel : ℕ) (op : Char) (k : Option ℤ) : T Unit :=
  match op with
  | 'i' => do insertCase cf fuel (← value k)
  | 's' => do searchCase cf fuel (← value k)
  | 'r' => do removeCase cf fuel (← value k)
  | _ => return

/-- `exec_file`, with the contents of the file and the value of `k`. -/
def execFile (cf : Config) (fuel : ℕ) : ℕ → List Char → Option ℤ → T Unit
  | 0, _, _ => throw .fuel
  | rounds + 1, input, k =>
    match fscanf input with
    | none => return
    | some (op, scanned, rest) => do
      let k := scanned.or k
      if op = 'q' then return
      else
        execOp cf fuel op k
        execFile cf fuel rounds rest k

end Program

section Keys

/-- What the test is about: a set of keys. -/
inductive Command
  | insert (k : ℤ)
  | search (k : ℤ)
  | remove (k : ℤ)
  deriving DecidableEq

/-- The commands among what is scanned; other characters are passed over. -/
def command : Char × Option ℤ → Option Command
  | ('i', some k) => some (.insert k)
  | ('s', some k) => some (.search k)
  | ('r', some k) => some (.remove k)
  | _ => none

def Command.apply (s : Finset ℤ) : Command → Finset ℤ
  | .insert k => Insert.insert k s
  | .search _ => s
  | .remove k => s.erase k

def Command.succeeds (s : Finset ℤ) : Command → Bool
  | .insert k => k ∉ s
  | .search k => k ∈ s
  | .remove k => k ∈ s

/-- How many commands of each kind have succeeded. -/
structure Tally where
  ins : ℕ
  query : ℕ
  del : ℕ

def Tally.count (n : Tally) : Command → Tally
  | .insert _ => { n with ins := n.ins + 1 }
  | .search _ => { n with query := n.query + 1 }
  | .remove _ => { n with del := n.del + 1 }

def play (s : Finset ℤ) (n : Tally) : List Command → Finset ℤ × Tally
  | [] => (s, n)
  | c :: cs => play (c.apply s) (if c.succeeds s then n.count c else n) cs

/-- The map of the set: every key is its own value. -/
def identity (s : Finset ℤ) : Table := fun k ↦ if k ∈ s then some k else none

variable {s : Finset ℤ} {k : ℤ}

theorem identity_eq_none : identity s k = none ↔ k ∉ s := by
  simp [identity]

theorem put_insert (hk : k ≠ 0) :
    Table.put (identity s) k k = (if k ∈ s then -1 else 0, identity (insert k s)) := by
  rw [Table.put, if_pos hk]
  by_cases hmem : k ∈ s
  · rw [if_neg (not_not.mpr hmem ∘ identity_eq_none.mp), if_pos hmem, Finset.insert_eq_of_mem hmem]
  · rw [if_pos (identity_eq_none.mpr hmem), if_neg hmem, Prod.mk.injEq]
    refine ⟨rfl, funext fun j ↦ ?_⟩
    by_cases hj : j = k
    · subst hj
      simp [identity]
    · simp [identity, hj]

theorem put_remove :
    Table.put (identity s) k 0 = (if k ∈ s then 0 else -1, identity (s.erase k)) := by
  rw [Table.put, if_neg (not_not.mpr rfl)]
  by_cases hmem : k ∈ s
  · rw [if_neg (not_not.mpr hmem ∘ identity_eq_none.mp), if_pos hmem, Prod.mk.injEq]
    refine ⟨rfl, funext fun j ↦ ?_⟩
    by_cases hj : j = k
    · subst hj
      simp [identity]
    · simp [identity, hj]
  · rw [if_pos (identity_eq_none.mpr hmem), if_neg hmem, Finset.erase_eq_of_notMem hmem]

end Keys

section Cases

variable {cf : Config} {fuel w : ℕ} {b : Bench} {s : Finset ℤ} {n : Tally} {k : ℤ}

/-- The keys that have a bit in `huge_array`. -/
def HasBit (k : ℤ) : Prop := 0 ≤ k ∧ k / 8 < hugeSize

/-- The tree and `huge_array` hold the set `s`, and the counters are those of `n`; `w` bounds the
number of entries. -/
structure Agrees (cf : Config) (w : ℕ) (b : Bench) (s : Finset ℤ) (n : Tally) : Prop where
  tree : ∃ m d, Stands cf b.tree m d ∧ m.length ≤ w ∧ table m = identity s
  bits : ∀ k, HasBit k → lowBit b.hugeArray k.toNat = decide (k ∈ s)
  keys : ∀ k ∈ s, HasBit k ∧ k ≠ 0
  ins : b.validIns = n.ins % 2 ^ 32
  query : b.validQuery = n.query % 2 ^ 32
  del : b.validDel = n.del % 2 ^ 32

theorem incr_mod (n : ℕ) : incr (n % 2 ^ 32) = (n + 1) % 2 ^ 32 := by
  rw [incr, Nat.mod_add_mod]

theorem onTree_run {α : Type} {f : M α} {t : Tree} {Q : α → Tree → Prop} (ht : b.tree = t)
    (h : Runs f t Q) : Runs (onTree f) b fun a b' ↦ ∃ t, Q a t ∧ b' = { b with tree := t } := by
  obtain ⟨a, t', hok, hq⟩ := h
  refine ⟨a, { b with tree := t' }, ?_, t', hq, rfl⟩
  rw [onTree, ht, hok]

theorem place_run (hk : HasBit k) : Runs (place k) b fun i b' ↦ i = k.toNat ∧ b' = b := by
  have hnonneg : 0 ≤ k / 8 := Int.ediv_nonneg hk.1 (by norm_num)
  rw [place, if_pos ⟨hnonneg, hk.2⟩]
  exact runs_pure ⟨rfl, rfl⟩

theorem toNat_inj {j k : ℤ} (hj : HasBit j) (hk : HasBit k) : j.toNat = k.toNat ↔ j = k := by
  have := hj.1
  have := hk.1
  omega

/-- `bplus_tree_put` on the tree of a set. -/
theorem Agrees.put_run {v x : ℤ} {s' : Finset ℤ} (hcf : Sized cf) (h : Agrees cf w b s n)
    (hw : w < fuel) (hput : Table.put (identity s) k v = (x, identity s')) :
    Runs (bplusTreePut cf fuel k v) b.tree fun y t ↦ y = x ∧
      ∃ m d, Stands cf t m d ∧ m.length ≤ w + 1 ∧ table m = identity s' := by
  obtain ⟨m, d, hstands, hlen, htable⟩ := h.tree
  refine (put_follows hcf hstands (by omega)).mono ?_
  intro y t ⟨m', d', hfollows, hresult, _⟩
  rw [htable, hput, Prod.mk.injEq] at hresult
  have hlen' := hfollows.length
  exact ⟨hresult.1, m', d', hfollows.stands, by omega, hresult.2⟩

theorem Agrees.bits_set (h : Agrees cf w b s n) (hk : HasBit k) {j : ℤ} (hj : HasBit j) :
    lowBit (setLowBit b.hugeArray k.toNat) j.toNat = decide (j ∈ insert k s) := by
  rw [lowBit_set, h.bits j hj, decide_eq_decide.mpr (toNat_inj hj hk), ← Bool.decide_or,
    decide_eq_decide, Finset.mem_insert]

theorem Agrees.bits_clear (h : Agrees cf w b s n) (hk : HasBit k) {j : ℤ} (hj : HasBit j) :
    lowBit (clearLowBit b.hugeArray k.toNat) j.toNat = decide (j ∈ s.erase k) := by
  rw [lowBit_clear, h.bits j hj, decide_eq_decide.mpr (toNat_inj hj hk), ← decide_not,
    ← Bool.decide_and, decide_eq_decide, Finset.mem_erase]

theorem Agrees.keys_insert (h : Agrees cf w b s n) (hk : HasBit k) (hzero : k ≠ 0) :
    ∀ j ∈ insert k s, HasBit j ∧ j ≠ 0 := by
  intro j hj
  rcases Finset.mem_insert.mp hj with rfl | hj
  · exact ⟨hk, hzero⟩
  · exact h.keys j hj

theorem insertCase_run (hcf : Sized cf) (h : Agrees cf w b s n) (hw : w < fuel) (hk : HasBit k)
    (hzero : k ≠ 0) : Runs (insertCase cf fuel k) b fun _ b' ↦
      Agrees cf (w + 1) b' (insert k s) (if k ∉ s then n.count (.insert k) else n) := by
  refine (place_run hk).seq ?_
  rintro _ b ⟨rfl, rfl⟩
  refine runs_get_bind ?_
  have hput := h.put_run hcf hw (put_insert hzero)
  have hkeys := h.keys_insert hk hzero
  have hexist := h.bits k hk
  by_cases hmem : k ∈ s
  · rw [if_pos hmem] at hput
    rw [decide_eq_true hmem] at hexist
    simp only [hexist, if_true, if_neg (not_not.mpr hmem)]
    refine runs_modify_bind ((onTree_run (by rfl) hput).seq ?_)
    rintro x _ ⟨t, ⟨rfl, htree⟩, rfl⟩
    rw [if_neg (by norm_num)]
    refine runs_pure ⟨htree, ?_, hkeys, h.ins, h.query, h.del⟩
    rw [Finset.insert_eq_of_mem hmem]
    exact h.bits
  · rw [if_neg hmem] at hput
    rw [decide_eq_false hmem] at hexist
    simp only [hexist, Bool.false_eq_true, if_false, if_pos hmem]
    refine runs_modify_bind ((onTree_run (by rfl) hput).seq ?_)
    rintro x _ ⟨t, ⟨rfl, htree⟩, rfl⟩
    rw [if_pos rfl]
    refine runs_modify_bind (runs_pure ⟨htree, fun j hj ↦ h.bits_set hk hj, hkeys, ?_, h.query,
      h.del⟩)
    change incr b.validIns = _
    rw [h.ins, incr_mod]
    rfl

/-- The key 0 cannot be inserted: its value would be 0. -/
theorem insertCase_zero (hcf : Sized cf) (h : Agrees cf w b s n) (hw : w < fuel) :
    insertCase cf fuel 0 b = .error (.report "insert" 0 "could be inserted") := by
  have hbit : HasBit 0 := ⟨le_rfl, by decide⟩
  have hmem : (0 : ℤ) ∉ s := fun h₀ ↦ (h.keys 0 h₀).2 rfl
  have hput := h.put_run hcf hw (put_remove (k := 0))
  have hexist := h.bits 0 hbit
  rw [if_neg hmem] at hput
  rw [decide_eq_false hmem] at hexist
  refine (place_run hbit).seq_error ?_
  rintro _ b ⟨rfl, rfl⟩
  refine Runs.seq_error (P := fun b₁ b₂ ↦ b₁ = b ∧ b₂ = b) ⟨b, b, rfl, rfl, rfl⟩ ?_
  rintro _ b ⟨rfl, rfl⟩
  simp only [hexist, Bool.false_eq_true, if_false]
  refine Runs.seq_error (P := fun _ b' ↦ b' = { b with hugeArray := setLowBit b.hugeArray 0 })
    (runs_modify rfl) ?_
  rintro _ _ rfl
  refine Runs.seq_error (onTree_run (by rfl) hput) ?_
  rintro x _ ⟨t, ⟨rfl, -⟩, rfl⟩
  rw [if_neg (by norm_num)]
  rfl

theorem searchCase_run (hcf : Sized cf) (h : Agrees cf w b s n) (hw : w < fuel) (hk : HasBit k) :
    Runs (searchCase cf fuel k) b fun _ b' ↦
      Agrees cf (w + 1) b' s (if k ∈ s then n.count (.search k) else n) := by
  obtain ⟨m, d, ⟨st, hrep, hholds⟩, hlen, htable⟩ := h.tree
  have hget := get_run (k := k) hcf ⟨st, hrep, hholds⟩ (show m.length < fuel by omega)
  rw [htable] at hget
  have hexist := h.bits k hk
  refine (place_run hk).seq ?_
  rintro _ b ⟨rfl, rfl⟩
  refine runs_get_bind ?_
  dsimp only
  refine (onTree_run (by rfl) hget).seq ?_
  rintro x _ ⟨t, ⟨hstill, rfl⟩, rfl⟩
  have htree : ∃ m d, Stands cf t m d ∧ m.length ≤ w + 1 ∧ table m = identity s :=
    ⟨m, d, ⟨st, hstill.rep hrep, hholds⟩, by omega, htable⟩
  by_cases hmem : k ∈ s
  · have hsize : hugeSize = 268435455 := rfl
    have hvalue : answer (identity s k) = k := by
      rw [identity, if_pos hmem]
      exact wrap_eq_iff.mpr (by have := hk.1; have := hk.2; omega)
    have hfound : k ≠ -1 := by have := hk.1; omega
    rw [decide_eq_true hmem] at hexist
    rw [hvalue, if_pos hfound, hexist, if_pos hmem]
    refine runs_modify_bind ?_
    rw [if_pos rfl, if_pos rfl]
    refine runs_pure ⟨htree, h.bits, h.keys, h.ins, ?_, h.del⟩
    change incr b.validQuery = _
    rw [h.query, incr_mod]
    rfl
  · have hvalue : answer (identity s k) = -1 := by
      rw [identity, if_neg hmem]
      rfl
    rw [decide_eq_false hmem] at hexist
    rw [hvalue, if_neg (not_not.mpr rfl), hexist, if_neg Bool.false_ne_true, if_neg hmem]
    exact runs_pure ⟨htree, h.bits, h.keys, h.ins, h.query, h.del⟩

theorem removeCase_run (hcf : Sized cf) (h : Agrees cf w b s n) (hw : w < fuel) (hk : HasBit k) :
    Runs (removeCase cf fuel k) b fun _ b' ↦
      Agrees cf (w + 1) b' (s.erase k) (if k ∈ s then n.count (.remove k) else n) := by
  refine (place_run hk).seq ?_
  rintro _ b ⟨rfl, rfl⟩
  refine runs_get_bind ?_
  have hput := h.put_run hcf hw (put_remove (k := k))
  have hkeys : ∀ j ∈ s.erase k, HasBit j ∧ j ≠ 0 := fun j hj ↦ h.keys j (Finset.mem_of_mem_erase hj)
  have hexist := h.bits k hk
  by_cases hmem : k ∈ s
  · rw [if_pos hmem] at hput
    rw [decide_eq_true hmem] at hexist
    simp only [hexist, if_true, if_pos hmem]
    refine runs_modify_bind ((onTree_run (by rfl) hput).seq ?_)
    rintro x _ ⟨t, ⟨rfl, htree⟩, rfl⟩
    rw [if_pos rfl]
    refine runs_modify_bind (runs_pure ⟨htree, fun j hj ↦ h.bits_clear hk hj, hkeys, h.ins,
      h.query, ?_⟩)
    change incr b.validDel = _
    rw [h.del, incr_mod]
    rfl
  · rw [if_neg hmem] at hput
    rw [decide_eq_false hmem] at hexist
    simp only [hexist, Bool.false_eq_true, if_false, if_neg hmem]
    refine runs_modify_bind ((onTree_run (by rfl) hput).seq ?_)
    rintro x _ ⟨t, ⟨rfl, htree⟩, rfl⟩
    rw [if_neg (by norm_num)]
    refine runs_pure ⟨htree, ?_, hkeys, h.ins, h.query, h.del⟩
    rw [Finset.erase_eq_of_notMem hmem]
    exact h.bits

end Cases

section Files

variable {cf : Config} {fuel rounds w : ℕ} {b : Bench} {s : Finset ℤ} {n : Tally} {t : Tree}
  {text : List Char} {k : Option ℤ} {items : List (Char × Option ℤ)} {item : Char × Option ℤ}

/-- What the loop scans in a file, up to its end or to the first `q`, with the value of `k`
before and after each scan. -/
inductive Scans : List Char → Option ℤ → List (Char × Option ℤ) → Prop
  | eof {text : List Char} {k : Option ℤ} (h : fscanf text = none) : Scans text k []
  | quit {text rest : List Char} {k scanned : Option ℤ}
    (h : fscanf text = some ('q', scanned, rest)) : Scans text k []
  | item {text rest : List Char} {k scanned : Option ℤ} {op : Char}
    {items : List (Char × Option ℤ)} (h : fscanf text = some (op, scanned, rest)) (hop : op ≠ 'q')
    (hrest : Scans rest (scanned.or k) items) : Scans text k ((op, scanned.or k) :: items)

def execAll (cf : Config) (fuel : ℕ) : List (Char × Option ℤ) → T Unit
  | [] => return
  | (op, k) :: items => do
    execOp cf fuel op k
    execAll cf fuel items

theorem execFile_eq (h : Scans text k items) (hrounds : items.length < rounds) :
    execFile cf fuel rounds text k = execAll cf fuel items := by
  induction h generalizing rounds with
  | eof h =>
    obtain ⟨rounds, rfl⟩ := Nat.exists_eq_succ_of_ne_zero (Nat.ne_zero_of_lt hrounds)
    rw [execFile, h, execAll]
  | quit h =>
    obtain ⟨rounds, rfl⟩ := Nat.exists_eq_succ_of_ne_zero (Nat.ne_zero_of_lt hrounds)
    rw [execFile, h, execAll]
    rfl
  | item h hop _ ih =>
    obtain ⟨rounds, rfl⟩ := Nat.exists_eq_succ_of_ne_zero (Nat.ne_zero_of_lt hrounds)
    rw [execFile, h]
    dsimp only
    rw [if_neg hop, ih (Nat.lt_of_succ_lt_succ hrounds), execAll]

/-- Every file can be scanned to its end, so the loop ends. -/
theorem exists_scans (text : List Char) (k : Option ℤ) :
    ∃ items, Scans text k items ∧ items.length ≤ text.length := by
  induction hlen : text.length using Nat.strong_induction_on generalizing text k with
  | _ len ih =>
    subst hlen
    cases hscan : fscanf text with
    | none => exact ⟨[], .eof hscan, Nat.zero_le _⟩
    | some scanned =>
      obtain ⟨op, x, rest⟩ := scanned
      have hlt := length_fscanf hscan
      by_cases hop : op = 'q'
      · subst hop
        exact ⟨[], .quit hscan, Nat.zero_le _⟩
      · obtain ⟨items, hitems, hle⟩ := ih rest.length hlt rest (x.or k) rfl
        exact ⟨_, .item hscan hop hitems, by rw [List.length_cons]; omega⟩

/-- The keys of the commands have a bit. -/
def InArray (item : Char × Option ℤ) : Prop :=
  item.1 ∈ ['i', 's', 'r'] → ∃ x, item.2 = some x ∧ HasBit x

def Command.key : Command → ℤ
  | .insert k | .search k | .remove k => k

def Command.exec (cf : Config) (fuel : ℕ) : Command → T Unit
  | .insert k => insertCase cf fuel k
  | .search k => searchCase cf fuel k
  | .remove k => removeCase cf fuel k

theorem Command.exec_run {c : Command} (hcf : Sized cf) (h : Agrees cf w b s n) (hw : w < fuel)
    (hk : HasBit c.key) (hzero : c ≠ .insert 0) : Runs (c.exec cf fuel) b fun _ b' ↦
      Agrees cf (w + 1) b' (c.apply s) (if c.succeeds s then n.count c else n) := by
  cases c with
  | insert k =>
    have hne : k ≠ 0 := by
      rintro rfl
      exact hzero rfl
    simp only [Command.succeeds, decide_eq_true_eq]
    exact insertCase_run hcf h hw hk hne
  | search k =>
    simp only [Command.succeeds, decide_eq_true_eq]
    exact searchCase_run hcf h hw hk
  | remove k =>
    simp only [Command.succeeds, decide_eq_true_eq]
    exact removeCase_run hcf h hw hk

/-- An item is a command or does nothing. -/
theorem execOp_cases (cf : Config) (fuel : ℕ) (h : InArray item) :
    (∃ c, command item = some c ∧ execOp cf fuel item.1 item.2 = c.exec cf fuel ∧ HasBit c.key) ∨
      (command item = none ∧ execOp cf fuel item.1 item.2 = pure ()) := by
  obtain ⟨op, k⟩ := item
  by_cases hop : op ∈ ['i', 's', 'r']
  · obtain ⟨x, hx, hbit⟩ := h hop
    dsimp only at hx
    subst hx
    left
    simp only [List.mem_cons, List.not_mem_nil, or_false] at hop
    rcases hop with rfl | rfl | rfl
    · exact ⟨.insert x, rfl, rfl, hbit⟩
    · exact ⟨.search x, rfl, rfl, hbit⟩
    · exact ⟨.remove x, rfl, rfl, hbit⟩
  · right
    simp only [List.mem_cons, List.not_mem_nil, or_false, not_or] at hop
    obtain ⟨hi, hs, hr⟩ := hop
    exact ⟨by simp [command, hi, hs, hr], by simp [execOp]⟩

theorem execAll_run (hcf : Sized cf) (h : Agrees cf w b s n) (hitems : ∀ item ∈ items, InArray item)
    (hzero : .insert 0 ∉ items.filterMap command) (hw : w + items.length ≤ fuel) :
    Runs (execAll cf fuel items) b fun _ b' ↦ ∃ w', Agrees cf w' b'
      (play s n (items.filterMap command)).1 (play s n (items.filterMap command)).2 := by
  induction items generalizing b w s n with
  | nil => exact runs_pure ⟨w, h⟩
  | cons item items ih =>
    rw [List.length_cons] at hw
    have hrest : ∀ item ∈ items, InArray item := fun i hi ↦ hitems i (List.mem_cons_of_mem _ hi)
    rcases execOp_cases cf fuel (hitems item List.mem_cons_self) with
      ⟨c, hc, hexec, hbit⟩ | ⟨hc, hexec⟩
    · rw [List.filterMap_cons_some hc] at hzero ⊢
      rw [List.mem_cons, not_or] at hzero
      rw [execAll, hexec]
      refine (Command.exec_run hcf h (by omega) hbit (Ne.symm hzero.1)).seq ?_
      intro _ b' h'
      exact ih h' hrest hzero.2 (by omega)
    · rw [List.filterMap_cons_none hc] at hzero ⊢
      rw [execAll, hexec]
      exact ih h hrest hzero (by omega)

/-- The test stops at the first attempt to insert the key 0. -/
theorem execAll_error (hcf : Sized cf) (h : Agrees cf w b s n)
    (hitems : ∀ item ∈ items, InArray item) (hzero : .insert 0 ∈ items.filterMap command)
    (hw : w + items.length ≤ fuel) :
    execAll cf fuel items b = .error (.report "insert" 0 "could be inserted") := by
  induction items generalizing b w s n with
  | nil => exact absurd hzero List.not_mem_nil
  | cons item items ih =>
    rw [List.length_cons] at hw
    have hrest : ∀ item ∈ items, InArray item := fun i hi ↦ hitems i (List.mem_cons_of_mem _ hi)
    rcases execOp_cases cf fuel (hitems item List.mem_cons_self) with
      ⟨c, hc, hexec, hbit⟩ | ⟨hc, hexec⟩
    · rw [List.filterMap_cons_some hc, List.mem_cons] at hzero
      rw [execAll, hexec]
      by_cases hne : c = .insert 0
      · subst hne
        exact bind_error (insertCase_zero hcf h (by omega))
      · refine (Command.exec_run hcf h (by omega) hbit hne).seq_error ?_
        intro _ b' h'
        exact ih h' hrest (hzero.resolve_left (Ne.symm hne)) (by omega)
    · rw [List.filterMap_cons_none hc] at hzero
      rw [execAll, hexec]
      exact ih h hrest hzero (by omega)

/-- The state before `exec_file`. -/
def start (t : Tree) : Bench := ⟨t, fun _ ↦ 0, 0, 0, 0, false⟩

theorem agrees_start (hf : Fresh cf t) : Agrees cf 0 (start t) ∅ ⟨0, 0, 0⟩ := by
  refine ⟨⟨[], 1, hf.stands, le_rfl, ?_⟩, fun k _ ↦ ?_,
    fun k hk ↦ absurd hk (Finset.notMem_empty k), rfl, rfl, rfl⟩
  · funext k
    simp [identity, table]
  · rw [lowBit_eq]
    simp [start]

end Files

end MqssdModel.BPlusTree.Coverage
