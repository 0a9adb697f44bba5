import MqssdModel.BPlusTree.Checking
import MqssdModel.BPlusTree.Layout

namespace MqssdModel.BPlusTree.RawAccess

open Data.Arrays Data.Bytes Data.TotalRun Machine Boot Checking History Layout

section Memory

/-- The buffer of `MIN_CACHE_NUM` blocks behind `tree->caches`, and the bytes of the index file. -/
structure Raw where
  buffer : List UInt8
  file : List UInt8

def size (cf : Config) : ℕ := cf.blockSize.toNat

def Raw.cache (cf : Config) (r : Raw) (s : Slot) : List UInt8 :=
  slice r.buffer (size cf * s) (size cf)

def Raw.block (cf : Config) (r : Raw) (offset : ℤ) : List UInt8 :=
  slice r.file offset.toNat (size cf)

/-- A write through a pointer into the cache `s`. -/
def Raw.poke (cf : Config) (r : Raw) (s : Slot) (a : ℕ) (bs : List UInt8) : Raw :=
  { r with buffer := overwrite r.buffer (size cf * s + a) bs }

variable {cf : Config} {r : Raw} {s s' : Slot} {a : ℕ} {bs : List UInt8}

theorem cache_bounds (hbuf : r.buffer.length = size cf * 5) (s : Slot) :
    size cf * s + size cf ≤ r.buffer.length := by
  have hs : (s : ℕ) + 1 ≤ 5 := s.isLt
  calc size cf * s + size cf = size cf * (s + 1) := by ring
    _ ≤ size cf * 5 := Nat.mul_le_mul_left _ hs
    _ = r.buffer.length := hbuf.symm

theorem cache_poke (hbuf : r.buffer.length = size cf * 5) (ha : a + bs.length ≤ size cf) :
    (r.poke cf s a bs).cache cf s = overwrite (r.cache cf s) a bs :=
  slice_overwrite_within ha (cache_bounds hbuf s)

theorem cache_poke_of_ne (hbuf : r.buffer.length = size cf * 5) (ha : a + bs.length ≤ size cf)
    (hs : s' ≠ s) : (r.poke cf s a bs).cache cf s' = r.cache cf s' := by
  have hbounds := cache_bounds hbuf s
  refine slice_overwrite_apart ?_ (by omega)
  rcases lt_or_gt_of_ne (Fin.val_ne_of_ne hs) with hlt | hgt
  · left
    calc size cf * s' + size cf = size cf * (s' + 1) := by ring
      _ ≤ size cf * s := Nat.mul_le_mul_left _ hlt
      _ ≤ size cf * s + a := Nat.le_add_right _ _
  · right
    calc size cf * s + a + bs.length ≤ size cf * (s + 1) := by linarith
      _ ≤ size cf * s' := Nat.mul_le_mul_left _ hgt

theorem length_poke (hbuf : r.buffer.length = size cf * 5) (ha : a + bs.length ≤ size cf) :
    (r.poke cf s a bs).buffer.length = size cf * 5 := by
  have hbounds := cache_bounds hbuf s
  rw [Raw.poke, length_overwrite (by omega), hbuf]

end Memory

section Accesses

/-- What the functions of the tree do to nodes and files. Everything else they do is in `keep`. -/
inductive Access
  | assign (c : Ptr) (cell : Cell) (v : ℤ)
  | retype (c : Ptr) (type : NodeType)
  | store (p : Part) (c : Ptr) (i v : ℤ)
  | memmove (p : Part) (dst : Ptr) (d : ℤ) (src : Ptr) (s n : ℤ)
  | pread (c : Ptr) (offset : ℤ)
  | pwrite (c : Ptr) (offset : ℤ)
  | keep (f : Tree → Tree)

/-- The access as an operation on nodes. -/
def Access.onNodes (cf : Config) : Access → M Unit
  | .assign c cell v => modifyNode c fun n ↦ cell.put n v
  | .retype c type => modifyNode c fun n ↦ { n with type := type }
  | .store p c i v => Machine.store cf p.field c i v
  | .memmove p dst d src s n => Machine.memmove cf p.field dst d src s n
  | .pread c offset => Machine.pread c offset
  | .pwrite c offset => Machine.pwrite c offset
  | .keep f => modify f

/-- The access as an operation on bytes. -/
def Access.onBytes (cf : Config) (r : Raw) : Access → Raw
  | .assign c cell v => r.poke cf c.slot (cell.start cf).toNat (ofInt cell.width v)
  | .retype c type =>
    r.poke cf c.slot (Cell.type.start cf).toNat (ofInt Cell.type.width (typeCode type))
  | .store p c i v => r.poke cf c.slot ((p.cell i).start cf).toNat (ofInt p.width v)
  | .memmove p dst d src s n =>
    r.poke cf dst.slot ((p.cell d).start cf).toNat
      (slice r.buffer (size cf * src.slot + ((p.cell s).start cf).toNat) (p.width * n.toNat))
  | .pread c offset => r.poke cf c.slot 0 (r.block cf offset)
  | .pwrite c offset => { r with file := writeAt r.file offset.toNat (r.cache cf c.slot) }
  | .keep _ => r

/-- What the types of the source and the callers see to: values are of the type of their cell, the
arrays are those of the type of the node, and blocks are written at multiples of the block size. -/
def Access.Typed (cf : Config) (t : Tree) : Access → Prop
  | .assign _ cell v => cell.Header ∧ cell ≠ .type ∧ cell.Holds v
  | .retype _ _ => True
  | .store p c i v => p.Suits (t.caches c.slot).type ∧ (p.cell i).Holds v
  | .memmove p dst _ src _ _ =>
    p.Suits (t.caches dst.slot).type ∧ p.Suits (t.caches src.slot).type
  | .pread _ _ => True
  | .pwrite _ offset => 0 ≤ offset ∧ cf.blockSize ∣ offset
  | .keep f => (f t).caches = t.caches ∧ (f t).file = t.file

/-- The cells that have been written since the buffer was allocated, in the caches and in the
blocks of the file. -/
structure Known where
  cache : Slot → Cell → Prop
  block : ℤ → Cell → Prop

def Known.setCache (k : Known) (s : Slot) (known : Cell → Prop) : Known :=
  { k with cache := Function.update k.cache s known }

def Access.learn (k : Known) : Access → Known
  | .assign c cell _ => k.setCache c.slot fun c' ↦ c' = cell ∨ k.cache c.slot c'
  | .retype c _ => k.setCache c.slot fun c' ↦ c' = .type ∨ k.cache c.slot c' ∧ c'.Header
  | .store p c i _ => k.setCache c.slot fun c' ↦ c' = p.cell i ∨ k.cache c.slot c'
  | .memmove p dst d src s n => k.setCache dst.slot fun c ↦
    (¬p.Moved d n c → k.cache dst.slot c) ∧
      ∀ i, c = p.cell i → d ≤ i → i < d + n → k.cache src.slot (p.cell (s + (i - d)))
  | .pread c offset => k.setCache c.slot (k.block offset)
  | .pwrite c offset => { k with block := Function.update k.block offset (k.cache c.slot) }
  | .keep _ => k

/-- The bytes are those of the nodes in the caches and in the file. -/
structure Shown (cf : Config) (r : Raw) (t : Tree) (k : Known) : Prop where
  length : r.buffer.length = size cf * 5
  cache : ∀ s, Shows cf (r.cache cf s) (t.caches s) (k.cache s)
  aligned : ∀ o n, t.file o = some n → 0 ≤ o ∧ cf.blockSize ∣ o ∧ o.toNat + size cf ≤ r.file.length
  block : ∀ o n, t.file o = some n → Shows cf (r.block cf o) n (k.block o)

end Accesses

section Steps

variable {cf : Config} {r : Raw} {t t' : Tree} {k : Known} {a : Access} {c : Ptr}

theorem Shown.poke {s : Slot} {i : ℕ} {bs : List UInt8} {n : Node} {known : Cell → Prop}
    (h : Shown cf r t k) (hi : i + bs.length ≤ size cf)
    (hshows : Shows cf (overwrite (r.cache cf s) i bs) n known) :
    Shown cf (r.poke cf s i bs) { t with caches := Function.update t.caches s n }
      (k.setCache s known) := by
  refine ⟨length_poke h.length hi, fun s' ↦ ?_, h.aligned, h.block⟩
  by_cases hs : s' = s
  · subst hs
    rw [cache_poke h.length hi]
    simpa only [Known.setCache, Function.update_self] using hshows
  · rw [cache_poke_of_ne h.length hi hs]
    simpa only [Known.setCache, Function.update_of_ne hs] using h.cache s'

theorem size_eq (hcf : Roomy cf) : (size cf : ℤ) = cf.blockSize :=
  Int.toNat_of_nonneg (by have := hcf.size; omega)

theorem Shown.assign {cell : Cell} {v : ℤ} (h : Shown cf r t k) (hcf : Roomy cf)
    (hcell : cell.Within cf (t.caches c.slot).type) (htype : cell ≠ .type) (hv : cell.Holds v) :
    Shown cf (r.poke cf c.slot (cell.start cf).toNat (ofInt cell.width v))
      { t with caches := Function.update t.caches c.slot (cell.put (t.caches c.slot) v) }
      (k.setCache c.slot fun c' ↦ c' = cell ∨ k.cache c.slot c') := by
  have hfits := Cell.fits hcf hcell
  have hsize := size_eq hcf
  refine h.poke ?_ ((h.cache c.slot).write hcf hcell htype hv)
  rw [length_ofInt]
  omega

theorem Shown.retype (h : Shown cf r t k) (hcf : Roomy cf) (type : NodeType) :
    Shown cf ((Access.retype c type).onBytes cf r)
      { t with caches :=
        Function.update t.caches c.slot { t.caches c.slot with type := type } }
      ((Access.retype c type).learn k) := by
  have hsize := size_eq hcf
  refine h.poke ?_ ((h.cache c.slot).retype hcf type)
  have hwithin : Cell.type.Within cf type := trivial
  have hfits := Cell.fits hcf hwithin
  rw [length_ofInt]
  omega

theorem Shown.memmove {p : Part} {dst src : Ptr} {d s m : ℤ} (h : Shown cf r t k)
    (hcf : Roomy cf) (hdst : p.Suits (t.caches dst.slot).type)
    (hsrc : p.Suits (t.caches src.slot).type) (hm : 0 ≤ m) (hd : 0 ≤ d)
    (hdm : d + m ≤ p.field.cap cf (t.caches dst.slot)) (hs : 0 ≤ s)
    (hsm : s + m ≤ p.field.cap cf (t.caches src.slot)) :
    Shown cf ((Access.memmove p dst d src s m).onBytes cf r)
      { t with caches := Function.update t.caches dst.slot (p.field.set (t.caches dst.slot)
        (blit (p.field.get (t.caches dst.slot)) d (p.field.get (t.caches src.slot)) s m)) }
      ((Access.memmove p dst d src s m).learn k) := by
  have hsize := size_eq hcf
  have hspan := Part.span hcf hd hdm
  have hspan' := Part.span hcf hs hsm
  have hbounds := cache_bounds h.length src.slot
  obtain ⟨j, rfl⟩ := Int.eq_ofNat_of_zero_le hm
  -- the source of the move lies in one cache
  have hcache : slice r.buffer (size cf * src.slot + ((p.cell s).start cf).toNat)
      (p.width * (j : ℤ).toNat) =
      slice (r.cache cf src.slot) ((p.cell s).start cf).toNat (p.width * (j : ℤ).toNat) := by
    rw [Raw.cache, slice_slice]
    rw [Int.toNat_natCast]
    zify
    omega
  have hmove := (h.cache dst.slot).move (h.cache src.slot) hcf hdst hsrc hm hd hdm hs hsm
  refine h.poke ?_ ?_
  · rw [length_slice]
    all_goals rw [Int.toNat_natCast]
    all_goals zify
    all_goals omega
  · rw [hcache]
    exact hmove

theorem Shown.pread {o : ℤ} {n : Node} (h : Shown cf r t k) (ho : t.file o = some n) :
    Shown cf ((Access.pread c o).onBytes cf r)
      { t with caches := Function.update t.caches c.slot n } ((Access.pread c o).learn k) := by
  obtain ⟨-, -, hend⟩ := h.aligned o n ho
  have hlen : (r.block cf o).length = size cf := length_slice hend
  have hcache : (r.cache cf c.slot).length = size cf :=
    length_slice (cache_bounds h.length c.slot)
  refine h.poke (by omega) ?_
  have hall : overwrite (r.cache cf c.slot) 0 (r.block cf o) = r.block cf o := by
    rw [overwrite, List.take_zero, List.nil_append, Nat.zero_add, hlen, ← hcache,
      List.drop_length, List.append_nil]
  rw [hall]
  exact h.block o n ho

theorem blocks_apart {b o o' : ℤ} (ho : b ∣ o) (ho' : b ∣ o') (hne : o ≠ o') :
    o + b ≤ o' ∨ o' + b ≤ o := by
  rcases lt_or_gt_of_ne hne with hlt | hgt
  · left
    have := Int.le_of_dvd (by omega) (Int.dvd_sub ho' ho)
    omega
  · right
    have := Int.le_of_dvd (by omega) (Int.dvd_sub ho ho')
    omega

theorem Shown.pwrite {o : ℤ} (h : Shown cf r t k) (hcf : Roomy cf) (ho : 0 ≤ o)
    (hdvd : cf.blockSize ∣ o) :
    Shown cf ((Access.pwrite c o).onBytes cf r)
      { t with file := Function.update t.file o (some (t.caches c.slot)) }
      ((Access.pwrite c o).learn k) := by
  have hsize := size_eq hcf
  have hcache : (r.cache cf c.slot).length = size cf :=
    length_slice (cache_bounds h.length c.slot)
  have hgrows : r.file.length ≤ (writeAt r.file o.toNat (r.cache cf c.slot)).length ∧
      o.toNat + (r.cache cf c.slot).length ≤
        (writeAt r.file o.toNat (r.cache cf c.slot)).length := length_writeAt
  refine ⟨h.length, h.cache, fun o' n ho' ↦ ?_, fun o' n ho' ↦ ?_⟩ <;> dsimp only at ho'
  · by_cases heq : o' = o
    · subst heq
      exact ⟨ho, hdvd, hcache ▸ hgrows.2⟩
    · rw [Function.update_of_ne heq] at ho'
      obtain ⟨hnonneg, hdvd', hend⟩ := h.aligned o' n ho'
      exact ⟨hnonneg, hdvd', hend.trans hgrows.1⟩
  · by_cases heq : o' = o
    · subst heq
      rw [Function.update_self] at ho'
      cases ho'
      have hwritten : Raw.block cf ((Access.pwrite c o').onBytes cf r) o' = r.cache cf c.slot := by
        conv_lhs => rw [Raw.block, ← hcache]
        exact slice_writeAt
      rw [hwritten]
      simpa only [Access.learn, Function.update_self] using h.cache c.slot
    · rw [Function.update_of_ne heq] at ho'
      obtain ⟨hnonneg, hdvd', hend⟩ := h.aligned o' n ho'
      have hapart := blocks_apart hdvd' hdvd heq
      have hkept : Raw.block cf ((Access.pwrite c o).onBytes cf r) o' = r.block cf o' :=
        slice_writeAt_apart (by omega) hend
      rw [hkept]
      simpa only [Access.learn, Function.update_of_ne heq] using h.block o' n ho'

theorem pread_eq {o : ℤ} {u : Unit} (h : Machine.pread c o t = .ok (u, t')) :
    ∃ n, t.file o = some n ∧ t' = { t with caches := Function.update t.caches c.slot n } := by
  obtain ⟨_, t₁, hheld, hrest⟩ := bind_eq_ok.mp h
  obtain rfl := checkHeld_quiet hheld
  obtain ⟨t₂, t₃, hget, hset⟩ := bind_eq_ok.mp hrest
  cases hget
  cases hfile : t₁.file o with
  | none =>
    rw [hfile] at hset
    cases hset
  | some n =>
    rw [hfile] at hset
    exact ⟨n, rfl, setNode_eq hset⟩

/-- What an access does to the nodes without a fault it does to the bytes. -/
theorem Shown.step {u : Unit} (h : Shown cf r t k) (hcf : Roomy cf) (ha : a.Typed cf t)
    (hok : a.onNodes cf t = .ok (u, t')) : Shown cf (a.onBytes cf r) t' (a.learn k) := by
  cases a with
  | assign c cell v =>
    obtain ⟨hheader, htype, hv⟩ := ha
    obtain rfl := modifyNode_eq hok
    exact h.assign hcf hheader.within htype hv
  | retype c type =>
    obtain rfl := modifyNode_eq hok
    exact h.retype hcf type
  | store p c i v =>
    obtain ⟨hp, hv⟩ := ha
    obtain ⟨n, t₁, hnode, hok⟩ := bind_eq_ok.mp hok
    obtain ⟨rfl, rfl⟩ := node_eq hnode
    split_ifs at hok with hi
    · obtain rfl := setNode_eq hok
      have hcell := Part.within hp hi.1 hi.2
      have hassign := h.assign hcf hcell (by cases p <;> nofun) hv
      rw [Part.put_cell, Part.width_cell] at hassign
      exact hassign
    · cases hok
  | memmove p dst d src s m =>
    obtain ⟨hdst, hsrc⟩ := ha
    obtain ⟨n, t₁, hnode, hok⟩ := bind_eq_ok.mp hok
    obtain ⟨rfl, rfl⟩ := node_eq hnode
    obtain ⟨n', t₂, hnode', hok⟩ := bind_eq_ok.mp hok
    obtain ⟨rfl, rfl⟩ := node_eq hnode'
    split_ifs at hok with hi
    · obtain rfl := setNode_eq hok
      obtain ⟨hm, hd, hdm, hs, hsm⟩ := hi
      exact h.memmove hcf hdst hsrc hm hd hdm hs hsm
    · cases hok
  | pread c o =>
    obtain ⟨n, hfile, rfl⟩ := pread_eq hok
    exact h.pread hfile
  | pwrite c o =>
    obtain ⟨n, t₁, hnode, hok⟩ := bind_eq_ok.mp hok
    obtain ⟨rfl, rfl⟩ := node_eq hnode
    cases hok
    exact h.pwrite hcf ha.1 ha.2
  | keep f =>
    cases hok
    obtain ⟨hcaches, hfile⟩ := ha
    refine ⟨h.length, fun s ↦ ?_, fun o n ho ↦ ?_, fun o n ho ↦ ?_⟩
    · rw [hcaches]
      exact h.cache s
    · exact h.aligned o n (hfile ▸ ho)
    · exact h.block o n (hfile ▸ ho)

end Steps

section Programs

variable {cf : Config} {r : Raw} {t t₁ t₂ : Tree} {k : Known}
  {as : List Access}

/-- Accesses that end without a fault, one after the other. -/
inductive Ends (cf : Config) : Tree → List Access → Tree → Prop
  | nil (t : Tree) : Ends cf t [] t
  | cons {t t₁ t₂ : Tree} {a : Access} {as : List Access} (htyped : a.Typed cf t)
    (hok : a.onNodes cf t = .ok ((), t₁)) (hrest : Ends cf t₁ as t₂) : Ends cf t (a :: as) t₂

theorem Shown.ends (hends : Ends cf t as t₂) (hcf : Roomy cf) (h : Shown cf r t k) :
    Shown cf (as.foldl (Access.onBytes cf) r) t₂ (as.foldl Access.learn k) := by
  induction hends generalizing r k with
  | nil t => exact h
  | cons htyped hok _ ih => exact ih (h.step hcf htyped hok)

theorem fresh_roomy (hf : Fresh cf t) : Roomy cf ∧ t.file = fun _ ↦ none := by
  obtain ⟨filename, blockSize, heap, cf₀, hlt, hinit⟩ := hf
  obtain ⟨-, hsize, hmin⟩ := accepted hinit
  obtain ⟨horder, hentries⟩ := order_geometry hsize hlt
  unfold bplusTreeInit at hinit
  split_ifs at hinit
  all_goals cases hinit
  refine ⟨⟨horder, hentries, ?_⟩, rfl⟩
  rw [horder] at hmin
  change 76 ≤ blockSize
  omega

/-- Nothing is known about a buffer that has just been allocated. -/
def Known.nothing : Known := ⟨fun _ _ ↦ False, fun _ _ ↦ False⟩

theorem shown_nothing (hcf : Roomy cf) (hbuf : r.buffer.length = size cf * 5)
    (hfile : t.file = fun _ ↦ none) : Shown cf r t .nothing := by
  refine ⟨hbuf, fun s ↦ ⟨?_, fun _ _ ↦ False.elim⟩, fun o n ho ↦ ?_, fun o n ho ↦ ?_⟩
  · rw [Raw.cache, length_slice (cache_bounds hbuf s), size_eq hcf]
  · rw [hfile] at ho
    cases ho
  · rw [hfile] at ho
    cases ho

theorem Shown.load {p : Part} {c : Ptr} {i v : ℤ} (h : Shown cf r t k)
    (hload : Machine.load cf p.field c i t = .ok (v, t₁)) (hp : p.Suits (t.caches c.slot).type)
    (hknown : k.cache c.slot (p.cell i)) : (p.cell i).read cf (r.cache cf c.slot) = v := by
  obtain ⟨n, t₂, hnode, hload⟩ := bind_eq_ok.mp hload
  obtain ⟨rfl, rfl⟩ := node_eq hnode
  split_ifs at hload with hi
  · cases hload
    rw [(h.cache c.slot).read _ (Part.within hp hi.1 hi.2) hknown, Part.value_cell]
  · cases hload

/-- An entry of a leaf is written, moved up and written to the file. -/
def shift : List Access :=
  [.retype ⟨0, 0⟩ .leaf, .store .key ⟨0, 0⟩ 0 5, .store .data ⟨0, 0⟩ 0 (-7),
    .memmove .data ⟨0, 0⟩ 1 ⟨0, 0⟩ 0 1, .pwrite ⟨0, 0⟩ 128]

end Programs

end MqssdModel.BPlusTree.RawAccess
