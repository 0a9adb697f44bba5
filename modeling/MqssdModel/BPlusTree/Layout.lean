import MqssdModel.BPlusTree.Reopen
import MqssdModel.Data.Bytes

namespace MqssdModel.BPlusTree.Layout

open Data.Arrays Data.Bytes Data.TotalRun Machine Boot Reopen

section Places

/-- What a block consists of: the fields of `struct bplus_node` and the elements of its arrays. -/
inductive Cell
  | self
  | parent
  | prev
  | next
  | type
  | children
  | key (i : ℤ)
  | data (i : ℤ)
  | sub (i : ℤ)
  deriving DecidableEq

/-- `sizeof` of the cell. -/
def Cell.width : Cell → ℕ
  | .self | .parent | .prev | .next | .data _ | .sub _ => 8
  | .type | .children | .key _ => 4

/-- Where the cell starts in the block, by the macros `key`, `data` and `sub`. -/
def Cell.start (cf : Config) : Cell → ℤ
  | .self => 0
  | .parent => 8
  | .prev => 16
  | .next => 24
  | .type => 32
  | .children => 36
  | .key i => nodeSize + 4 * i
  | .data i => nodeSize + 4 * cf.maxEntries + 8 * i
  | .sub i => nodeSize + 4 * (cf.maxOrder - 1) + 8 * i

/-- The cells of a leaf and those of a non-leaf. -/
def Cell.Within (cf : Config) (type : NodeType) : Cell → Prop
  | .key i => 0 ≤ i ∧ i < if type = .leaf then cf.maxEntries else cf.maxOrder - 1
  | .data i => type = .leaf ∧ 0 ≤ i ∧ i < cf.maxEntries
  | .sub i => type = .nonLeaf ∧ 0 ≤ i ∧ i < cf.maxOrder
  | _ => True

/-- The numbers of elements are those for which there is room in a block. -/
structure Roomy (cf : Config) : Prop where
  order : cf.maxOrder = (cf.blockSize - 40) / 12
  entries : cf.maxEntries = (cf.blockSize - 40) / 12
  size : 76 ≤ cf.blockSize

variable {cf : Config} {type : NodeType} {c c' : Cell}

theorem Cell.fits (hcf : Roomy cf) (hc : c.Within cf type) :
    0 ≤ c.start cf ∧ c.start cf + c.width ≤ cf.blockSize := by
  obtain ⟨horder, hentries, hsize⟩ := hcf
  have hn : nodeSize = 40 := rfl
  cases c <;> simp only [Cell.Within, Cell.start, Cell.width, Nat.cast_ofNat] at hc ⊢
  case key i =>
    split_ifs at hc <;> omega
  all_goals omega

/-- No two cells of a block meet. -/
theorem Cell.apart (hcf : Roomy cf) (hc : c.Within cf type) (hc' : c'.Within cf type)
    (hne : c ≠ c') : c.start cf + c.width ≤ c'.start cf ∨ c'.start cf + c'.width ≤ c.start cf := by
  obtain ⟨horder, hentries, hsize⟩ := hcf
  have hn : nodeSize = 40 := rfl
  cases type <;> cases c <;> cases c' <;>
    simp only [Cell.Within, Cell.start, Cell.width, Nat.cast_ofNat, ne_eq, Cell.key.injEq,
      Cell.data.injEq, Cell.sub.injEq, not_true_eq_false, reduceCtorEq, if_true, if_false,
      false_and] at hc hc' hne ⊢ <;> omega

end Places

section Nodes

variable {cf : Config} {c c' : Cell} {b : List UInt8} {n : Node} {v : ℤ} {known : Cell → Prop}

/-- `BPLUS_TREE_LEAF` and `BPLUS_TREE_NON_LEAF` -/
def typeCode : NodeType → ℤ
  | .leaf => 0
  | .nonLeaf => 1

def Cell.value (n : Node) : Cell → ℤ
  | .self => n.self
  | .parent => n.parent
  | .prev => n.prev
  | .next => n.next
  | .type => typeCode n.type
  | .children => n.children
  | .key i => n.key i
  | .data i => n.data i
  | .sub i => n.sub i

/-- An assignment to a cell other than the type. -/
def Cell.put (n : Node) (v : ℤ) : Cell → Node
  | .self => { n with self := v }
  | .parent => { n with parent := v }
  | .prev => { n with prev := v }
  | .next => { n with next := v }
  | .type => n
  | .children => { n with children := v }
  | .key i => { n with key := Function.update n.key i v }
  | .data i => { n with data := Function.update n.data i v }
  | .sub i => { n with sub := Function.update n.sub i v }

def Cell.read (cf : Config) (b : List UInt8) (c : Cell) : ℤ :=
  toInt (slice b (c.start cf).toNat c.width)

def Cell.write (cf : Config) (b : List UInt8) (v : ℤ) (c : Cell) : List UInt8 :=
  overwrite b (c.start cf).toNat (ofInt c.width v)

/-- A value of the type of the cell. -/
def Cell.Holds (v : ℤ) (c : Cell) : Prop := Int.bmod v (256 ^ c.width) = v

/-- The bytes `b` are those of the node `n`, as far as its cells are known. What is not known is
left over from an earlier use of the buffer. -/
structure Shows (cf : Config) (b : List UInt8) (n : Node) (known : Cell → Prop) : Prop where
  length : (b.length : ℤ) = cf.blockSize
  read : ∀ c : Cell, c.Within cf n.type → known c → c.read cf b = c.value n

theorem Cell.type_put (c : Cell) : (c.put n v).type = n.type := by
  cases c <;> rfl

theorem Cell.value_put (hc : c ≠ .type) : c.value (c.put n v) = v := by
  cases c <;> simp [Cell.value, Cell.put] at hc ⊢

theorem Cell.value_put_of_ne (hne : c' ≠ c) : c'.value (c.put n v) = c'.value n := by
  cases c <;> cases c' <;> simp_all [Cell.value, Cell.put]

theorem Cell.bounds (hcf : Roomy cf) (hlen : (b.length : ℤ) = cf.blockSize)
    (hc : c.Within cf n.type) : (c.start cf).toNat + c.width ≤ b.length := by
  have := Cell.fits hcf hc
  omega

theorem Cell.read_write (hcf : Roomy cf) (hlen : (b.length : ℤ) = cf.blockSize)
    (hc : c.Within cf n.type) (hv : c.Holds v) : c.read cf (c.write cf b v) = v := by
  have hbounds := Cell.bounds hcf hlen hc
  have hslice : slice (c.write cf b v) (c.start cf).toNat (ofInt c.width v).length =
      ofInt c.width v := slice_overwrite (by omega)
  rw [length_ofInt] at hslice
  rw [Cell.read, hslice, toInt_ofInt]
  exact hv

theorem Cell.read_write_of_ne (hcf : Roomy cf) (hlen : (b.length : ℤ) = cf.blockSize)
    (hc : c.Within cf n.type) (hc' : c'.Within cf n.type) (hne : c' ≠ c) :
    c'.read cf (c.write cf b v) = c'.read cf b := by
  have hfits := Cell.fits hcf hc
  have hfits' := Cell.fits hcf hc'
  have hapart := Cell.apart hcf hc' hc hne
  rw [Cell.read, Cell.write, slice_overwrite_apart _ (by omega)]
  · rfl
  · rw [length_ofInt]
    omega

theorem Shows.write (h : Shows cf b n known) (hcf : Roomy cf) (hc : c.Within cf n.type)
    (htype : c ≠ .type) (hv : c.Holds v) :
    Shows cf (c.write cf b v) (c.put n v) fun c' ↦ c' = c ∨ known c' := by
  have hbounds := Cell.bounds hcf h.length hc
  refine ⟨?_, fun c' hc' hknown ↦ ?_⟩
  · rw [Cell.write, length_overwrite (by rwa [length_ofInt]), h.length]
  · rw [Cell.type_put] at hc'
    by_cases heq : c' = c
    · subst heq
      rw [Cell.read_write hcf h.length hc' hv, Cell.value_put htype]
    · rw [Cell.read_write_of_ne hcf h.length hc hc' heq, Cell.value_put_of_ne heq]
      exact h.read c' hc' (hknown.resolve_left heq)

/-- Whether a cell has its place in leaves and non-leaves alike. -/
def Cell.Header : Cell → Prop
  | .key _ | .data _ | .sub _ => False
  | _ => True

theorem Cell.Header.within {type : NodeType} (hc : c.Header) : c.Within cf type := by
  cases c <;> trivial

/-- The type is set. What the arrays of the block are depends on it, so their elements are not
known any more. -/
theorem Shows.retype (h : Shows cf b n known) (hcf : Roomy cf) (type : NodeType) :
    Shows cf (Cell.type.write cf b (typeCode type)) { n with type := type }
      fun c ↦ c = .type ∨ known c ∧ c.Header := by
  have htype : Cell.type.Within cf n.type := trivial
  have hbounds := Cell.bounds hcf h.length htype
  refine ⟨?_, fun c hc hknown ↦ ?_⟩
  · rw [Cell.write, length_overwrite (by rwa [length_ofInt]), h.length]
  · by_cases heq : c = .type
    · subst heq
      refine Cell.read_write hcf h.length htype ?_
      cases type <;> rfl
    · obtain ⟨hk, hheader⟩ := hknown.resolve_left heq
      have hold := h.read c hheader.within hk
      rw [Cell.read_write_of_ne hcf h.length htype hheader.within heq, hold]
      cases c <;> first | rfl | exact absurd rfl heq

end Nodes

section Parts

variable {cf : Config} {b b' : List UInt8} {n n' : Node} {i d s m : ℤ}
  {known known' : Cell → Prop}

/-- The arrays of a block. -/
inductive Part
  | key
  | data
  | sub
  deriving DecidableEq

def Part.cell : Part → ℤ → Cell
  | .key => Cell.key
  | .data => Cell.data
  | .sub => Cell.sub

def Part.field : Part → Field
  | .key => keyField
  | .data => dataField
  | .sub => subField

/-- `sizeof` of an element. -/
def Part.width : Part → ℕ
  | .key => 4
  | .data | .sub => 8

/-- Leaves have values and non-leaves have children. -/
def Part.Suits (type : NodeType) : Part → Prop
  | .key => True
  | .data => type = .leaf
  | .sub => type = .nonLeaf

/-- The elements from `d` to `d + m` are replaced by those from `s` on of the other block. -/
def Part.move (cf : Config) (p : Part) (b : List UInt8) (d : ℤ) (b' : List UInt8) (s m : ℤ) :
    List UInt8 :=
  overwrite b ((p.cell d).start cf).toNat
    (slice b' ((p.cell s).start cf).toNat (p.width * m.toNat))

theorem Part.width_cell (p : Part) (i : ℤ) : (p.cell i).width = p.width := by
  cases p <;> rfl

theorem Part.start_cell (cf : Config) (p : Part) (i j : ℤ) :
    (p.cell j).start cf = (p.cell i).start cf + p.width * (j - i) := by
  cases p <;> simp only [Part.cell, Cell.start, Part.width, Nat.cast_ofNat] <;> ring

theorem Part.cell_injective (p : Part) : Function.Injective p.cell := by
  intro i j h
  cases p <;> cases h <;> rfl

theorem Part.within {p : Part} (hp : p.Suits n.type) (h₀ : 0 ≤ i) (hi : i < p.field.cap cf n) :
    (p.cell i).Within cf n.type := by
  cases p with
  | key =>
    refine ⟨h₀, ?_⟩
    simpa [Part.field, keyField, isLeaf] using hi
  | data => exact ⟨hp, h₀, hi⟩
  | sub => exact ⟨hp, h₀, hi⟩

theorem Part.value_cell (p : Part) : (p.cell i).value n = p.field.get n i := by
  cases p <;> rfl

theorem Part.put_cell (p : Part) {v : ℤ} :
    (p.cell i).put n v = p.field.set n (Function.update (p.field.get n) i v) := by
  cases p <;> rfl

theorem Part.value_set (p : Part) {a : ℤ → ℤ} : (p.cell i).value (p.field.set n a) = a i := by
  cases p <;> rfl

theorem Part.value_set_of_ne (p : Part) {a : ℤ → ℤ} {c : Cell} (hc : ∀ i, c ≠ p.cell i) :
    c.value (p.field.set n a) = c.value n := by
  cases p <;> cases c <;> first | rfl | exact absurd rfl (hc _)

theorem Part.type_set (p : Part) {a : ℤ → ℤ} : (p.field.set n a).type = n.type := by
  cases p <;> rfl

/-- The elements that lie in the part of the array that a move has written. -/
def Part.Moved (p : Part) (d m : ℤ) (c : Cell) : Prop :=
  ∃ i, c = p.cell i ∧ d ≤ i ∧ i < d + m

theorem Part.value_blit_of_not_moved (p : Part) {c : Cell} (a : ℤ → ℤ) (s : ℤ)
    (hc : ¬p.Moved d m c) :
    c.value (p.field.set n (blit (p.field.get n) d a s m)) = c.value n := by
  by_cases hcell : ∃ i, c = p.cell i
  · obtain ⟨i, rfl⟩ := hcell
    rw [Part.value_set, Part.value_cell, blit, if_neg]
    intro hi
    exact hc ⟨i, rfl, hi.1, hi.2⟩
  · push Not at hcell
    exact p.value_set_of_ne hcell

/-- The written elements are in the block. -/
theorem Part.span {p : Part} (hcf : Roomy cf) (hd : 0 ≤ d) (hdm : d + m ≤ p.field.cap cf n) :
    0 ≤ (p.cell d).start cf ∧ (p.cell d).start cf + p.width * m ≤ cf.blockSize := by
  obtain ⟨horder, hentries, hsize⟩ := hcf
  have hn : nodeSize = 40 := rfl
  cases p <;> simp only [Part.field, keyField, dataField, subField] at hdm <;>
    simp only [Part.cell, Cell.start, Part.width, Nat.cast_ofNat]
  case key => split_ifs at hdm <;> omega
  all_goals omega

/-- The other cells do not meet the written elements. -/
theorem Part.apart {p : Part} {c : Cell} (hcf : Roomy cf) (hp : p.Suits n.type)
    (hc : c.Within cf n.type) (hne : ¬p.Moved d m c) (hd : 0 ≤ d)
    (hdm : d + m ≤ p.field.cap cf n) :
    c.start cf + c.width ≤ (p.cell d).start cf ∨
      (p.cell d).start cf + p.width * m ≤ c.start cf := by
  obtain ⟨horder, hentries, hsize⟩ := hcf
  have hn : nodeSize = 40 := rfl
  have hne' : ∀ i, c = p.cell i → i < d ∨ d + m ≤ i := by
    intro i hi
    by_contra! h
    exact hne ⟨i, hi, h.1, h.2⟩
  cases htype : n.type <;> rw [htype] at hp hc <;> cases p <;>
    simp only [Part.Suits, reduceCtorEq] at hp <;>
    simp only [Part.field, keyField, dataField, subField, isLeaf, htype, decide_true, if_true,
      reduceCtorEq, decide_false, Bool.false_eq_true, if_false] at hdm <;>
    cases c <;>
    simp only [Cell.Within, Cell.start, Cell.width, Part.cell, Part.width, Nat.cast_ofNat,
      Cell.key.injEq, Cell.data.injEq, Cell.sub.injEq, reduceCtorEq, if_true, if_false, false_and,
      forall_eq'] at hc hne' ⊢ <;>
    omega

/-- A moved element is read where it came from. -/
theorem Part.read_moved {p : Part} {j k : ℕ} (hj : j < k) (hd : 0 ≤ (p.cell d).start cf)
    (hs : 0 ≤ (p.cell s).start cf) (hb : (p.cell d).start cf ≤ b.length)
    (hb' : (p.cell s).start cf + p.width * k ≤ b'.length) :
    (p.cell (d + j)).read cf (p.move cf b d b' s k) = (p.cell (s + j)).read cf b' := by
  have hjk : p.width * j + p.width ≤ p.width * k := by
    calc p.width * j + p.width = p.width * (j + 1) := by ring
      _ ≤ p.width * k := Nat.mul_le_mul_left _ hj
  have hstart (i : ℤ) (hi : 0 ≤ (p.cell i).start cf) :
      ((p.cell (i + j)).start cf).toNat = ((p.cell i).start cf).toNat + p.width * j := by
    have hcell := p.start_cell cf i (i + j)
    have hdiff : i + j - i = (j : ℤ) := by ring
    rw [hdiff] at hcell
    zify
    omega
  rw [Cell.read, Cell.read, Part.width_cell, Part.width_cell, hstart d hd, hstart s hs, Part.move,
    Int.toNat_natCast, slice_overwrite_inside _ (by omega), slice_slice hjk]
  rw [length_slice]
  · exact hjk
  · zify
    omega

/-- A move in two blocks, or in one with the parts meeting or not. -/
theorem Shows.move {p : Part} (h : Shows cf b n known) (h' : Shows cf b' n' known')
    (hcf : Roomy cf) (hp : p.Suits n.type) (hp' : p.Suits n'.type)
    (hm : 0 ≤ m) (hd : 0 ≤ d) (hdm : d + m ≤ p.field.cap cf n)
    (hs : 0 ≤ s) (hsm : s + m ≤ p.field.cap cf n') :
    Shows cf (p.move cf b d b' s m)
      (p.field.set n (blit (p.field.get n) d (p.field.get n') s m))
      fun c ↦ (¬p.Moved d m c → known c) ∧
        ∀ i, c = p.cell i → d ≤ i → i < d + m → known' (p.cell (s + (i - d))) := by
  have hspan := Part.span hcf hd hdm
  have hspan' := Part.span hcf hs hsm
  have hlen := h.length
  have hlen' := h'.length
  obtain ⟨k, rfl⟩ := Int.eq_ofNat_of_zero_le hm
  have hbytes : (slice b' ((p.cell s).start cf).toNat (p.width * (k : ℤ).toNat)).length =
      p.width * k := by
    rw [length_slice, Int.toNat_natCast]
    rw [Int.toNat_natCast]
    zify
    omega
  refine ⟨?_, fun c hc hknown ↦ ?_⟩
  · rw [Part.move, length_overwrite, hlen]
    rw [hbytes]
    zify
    omega
  · rw [Part.type_set] at hc
    by_cases hmoved : p.Moved d k c
    · obtain ⟨i, rfl, hdi, him⟩ := hmoved
      obtain ⟨j, hj⟩ := Int.eq_ofNat_of_zero_le (Int.sub_nonneg.mpr hdi)
      obtain rfl : i = d + j := by omega
      have hknown' := hknown.2 _ rfl hdi him
      rw [hj] at hknown'
      have hwithin : (p.cell (s + j)).Within cf n'.type :=
        Part.within hp' (by omega) (by omega)
      have hread := h'.read _ hwithin hknown'
      rw [Part.read_moved (by omega) hspan.1 hspan'.1 (by omega) (by omega), hread, Part.value_set,
        Part.value_cell, blit, if_pos ⟨hdi, him⟩, hj]
    · have hapart := Part.apart hcf hp hc hmoved hd hdm
      have hfits := Cell.fits hcf hc
      have hcases := p.value_blit_of_not_moved (n := n) (p.field.get n') s hmoved
      rw [Cell.read, Part.move, slice_overwrite_apart _ (by omega), hcases]
      · exact h.read c hc (hknown.1 hmoved)
      · rw [hbytes]
        zify
        omega

end Parts

end MqssdModel.BPlusTree.Layout
