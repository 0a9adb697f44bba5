import MqssdModel.BPlusTree.InnerSpecs

namespace MqssdModel.BPlusTree.Views

open Machine Caching Routines InnerSpecs

/-- What a block holds, without its place in the tree. -/
structure Content where
  kind : NodeType
  count : ℤ
  keys : List ℤ
  vals : List ℤ

def Block.content (b : Block) : Content := ⟨b.kind, b.count, b.keys, b.vals⟩

def Block.links (b : Block) : ℤ × ℤ := (b.prev, b.next)

def content (st : Store) (o : ℤ) : Option Content := (st.disk o).map Block.content

def links (st : Store) (o : ℤ) : Option (ℤ × ℤ) := (st.disk o).map Block.links

def par (st : Store) (o : ℤ) : Option ℤ := (st.disk o).map Block.parent

/-- The fields of `struct bplus_tree` that are not about the caches. -/
structure Header where
  root : ℤ
  level : ℤ
  fileSize : ℤ
  free : List ℤ

def header (st : Store) : Header := ⟨st.root, st.level, st.fileSize, st.free⟩

variable {cf : Config} {st : Store} {b : Block} {o p q v : ℤ} {f : Block → Block} {moved : List ℤ}
  {l r : Node}

section Write

@[simp] theorem content_write :
    content (st.write b) o = if o = b.self then some (Block.content b) else content st o := by
  unfold content Store.write
  by_cases h : o = b.self
  · simp [h]
  · simp [h]

@[simp] theorem links_write :
    links (st.write b) o = if o = b.self then some (b.prev, b.next) else links st o := by
  unfold links Store.write
  by_cases h : o = b.self
  · simp [h, Block.links]
  · simp [h]

@[simp] theorem par_write :
    par (st.write b) o = if o = b.self then some b.parent else par st o := by
  unfold par Store.write
  by_cases h : o = b.self
  · simp [h]
  · simp [h]

end Write

section Alter

theorem content_alter (hf : ∀ b, Block.content (f b) = Block.content b) :
    content (alter st q f) o = content st o := by
  unfold content alter
  by_cases h : o = q
  · subst h
    simp only [Function.update_self, Option.map_map]
    congr 1
    exact funext hf
  · simp [h]

theorem links_alter (hf : ∀ b, Block.links (f b) = Block.links b) :
    links (alter st q f) o = links st o := by
  unfold links alter
  by_cases h : o = q
  · subst h
    simp only [Function.update_self, Option.map_map]
    congr 1
    exact funext hf
  · simp [h]

theorem par_alter (hf : ∀ b, (f b).parent = b.parent) : par (alter st q f) o = par st o := by
  unfold par alter
  by_cases h : o = q
  · subst h
    simp only [Function.update_self, Option.map_map]
    congr 1
    exact funext hf
  · simp [h]

end Alter

section Links

@[simp] theorem content_setNext : content (setNext st q v) o = content st o := by
  unfold setNext
  split
  · rfl
  · exact content_alter fun _ ↦ rfl

@[simp] theorem content_setPrev : content (setPrev st q v) o = content st o := by
  unfold setPrev
  split
  · rfl
  · exact content_alter fun _ ↦ rfl

@[simp] theorem par_setNext : par (setNext st q v) o = par st o := by
  unfold setNext
  split
  · rfl
  · exact par_alter fun _ ↦ rfl

@[simp] theorem par_setPrev : par (setPrev st q v) o = par st o := by
  unfold setPrev
  split
  · rfl
  · exact par_alter fun _ ↦ rfl

theorem links_setNext (ho : o ≠ invalidOffset) : links (setNext st q v) o =
    if o = q then (links st o).map fun l ↦ (l.1, v) else links st o := by
  by_cases h : o = q
  · subst h
    rw [if_pos rfl, setNext, if_neg ho]
    simp only [links, alter, Function.update_self, Option.map_map]
    rfl
  · rw [if_neg h, setNext]
    split
    · rfl
    · simp [links, alter, h]

theorem links_setPrev (ho : o ≠ invalidOffset) : links (setPrev st q v) o =
    if o = q then (links st o).map fun l ↦ (v, l.2) else links st o := by
  by_cases h : o = q
  · subst h
    rw [if_pos rfl, setPrev, if_neg ho]
    simp only [links, alter, Function.update_self, Option.map_map]
    rfl
  · rw [if_neg h, setPrev]
    split
    · rfl
    · simp [links, alter, h]

end Links

section Parents

@[simp] theorem content_reparent : content (reparent st p moved) o = content st o := by
  induction moved generalizing st with
  | nil => rfl
  | cons q qs ih => exact ih.trans (content_alter fun _ ↦ rfl)

@[simp] theorem links_reparent : links (reparent st p moved) o = links st o := by
  induction moved generalizing st with
  | nil => rfl
  | cons q qs ih => exact ih.trans (links_alter fun _ ↦ rfl)

theorem par_reparent : par (reparent st p moved) o =
    if o ∈ moved then (par st o).map fun _ ↦ p else par st o := by
  induction moved generalizing st with
  | nil => rfl
  | cons q qs ih =>
    have halter : par (alter st q fun b ↦ { b with parent := p }) o =
        if o = q then (par st o).map fun _ ↦ p else par st o := by
      unfold par alter
      by_cases h : o = q
      · subst h
        simp [Option.map_map, Function.comp_def]
      · simp [h]
    rw [reparent, ih, halter]
    by_cases h : o = q <;> by_cases h' : o ∈ qs <;> simp [h, h', Function.comp_def]

end Parents

section Allocation

@[simp] theorem content_alloc : content (st.alloc cf) o = content st o := by
  rw [content, alloc_disk, content]

@[simp] theorem links_alloc : links (st.alloc cf) o = links st o := by rw [links, alloc_disk, links]

@[simp] theorem par_alloc : par (st.alloc cf) o = par st o := by rw [par, alloc_disk, par]

@[simp] theorem content_release : content (st.release q) o = content st o := rfl

@[simp] theorem links_release : links (st.release q) o = links st o := rfl

@[simp] theorem par_release : par (st.release q) o = par st o := rfl

end Allocation

section Headers

theorem root_alloc : (st.alloc cf).root = st.root := by
  unfold Store.alloc
  split <;> rfl

theorem level_alloc : (st.alloc cf).level = st.level := by
  unfold Store.alloc
  split <;> rfl

@[simp] theorem header_write : header (st.write b) = header st := rfl

@[simp] theorem header_setNext : header (setNext st q v) = header st := by
  unfold setNext
  split <;> rfl

@[simp] theorem header_setPrev : header (setPrev st q v) = header st := by
  unfold setPrev
  split <;> rfl

@[simp] theorem header_reparent : header (reparent st p moved) = header st := by
  induction moved generalizing st with
  | nil => rfl
  | cons q qs ih => exact ih

end Headers

end MqssdModel.BPlusTree.Views
