import MqssdModel.BPlusTree.Shape

namespace MqssdModel.BPlusTree.Pending

open Data.Rows Data.Chain Data.TotalRun Machine Caching Routines InnerSpecs Views Shape Allocation
  Steps

/-- The store with the nodes `l` and `r` written out, which are still in the caches. -/
def pending (st : Store) (l r : Node) : Store := (st.write (block l)).write (block r)

/-- Below the row `w` nothing changed, and on it only the parents did; the file has got at most `k`
blocks longer. -/
structure Kept (cf : Config) (k : ℕ) (st st' : Store) (low : List ℤ) (w : Row) : Prop where
  content : ∀ o ∈ low, content st' o = content st o
  links : ∀ o ∈ low, links st' o = links st o
  par : ∀ o ∈ low, o ∉ nodes w → par st' o = par st o
  size : Longer cf k st.fileSize st'.fileSize

variable {st S : Store} {l r n m : Node} {o p q : ℤ} {moved : List ℤ} {b : Block} {k : ℕ}

@[simp] theorem block_self : (block n).self = n.self := rfl

@[simp] theorem block_parent : (block n).parent = n.parent := rfl

@[simp] theorem block_prev : (block n).prev = n.prev := rfl

@[simp] theorem block_next : (block n).next = n.next := rfl

theorem content_pending : content (pending st l r) o =
    if o = r.self then some (Block.content (block r)) else
      if o = l.self then some (Block.content (block l)) else content st o := by
  rw [pending, content_write, content_write]
  rfl

theorem links_pending : links (pending st l r) o =
    if o = r.self then some (r.prev, r.next) else
      if o = l.self then some (l.prev, l.next) else links st o := by
  rw [pending, links_write, links_write]
  rfl

theorem par_pending : par (pending st l r) o =
    if o = r.self then some r.parent else if o = l.self then some l.parent else par st o := by
  rw [pending, par_write, par_write]
  rfl

theorem disk_pending (hl : o ≠ l.self) (hr : o ≠ r.self) : (pending st l r).disk o = st.disk o := by
  simp [pending, Store.write, hl, hr]

theorem content_adopt : content (adopt st p moved l r) o = content (pending st l r) o := by
  rw [content_pending, adopt, content_write, content_write, content_reparent]
  rfl

theorem links_adopt : links (adopt st p moved l r) o = links (pending st l r) o := by
  rw [links_pending, adopt, links_write, links_write, links_reparent]
  rfl

theorem par_adopt : par (adopt st p moved l r) o =
    if o = r.self ∨ o = l.self then some p else
      if o ∈ moved then (par st o).map fun _ ↦ p else par st o := by
  by_cases hr : o = r.self <;> by_cases hl : o = l.self <;> simp [adopt, par_reparent, hr, hl]

theorem disk_alter (h : o ≠ q) (f : Block → Block) : (alter st q f).disk o = st.disk o :=
  Function.update_of_ne h _ _

theorem disk_reparent (h : o ∉ moved) : (reparent st p moved).disk o = st.disk o := by
  induction moved generalizing st with
  | nil => rfl
  | cons q qs ih =>
    rw [List.mem_cons, not_or] at h
    exact (ih h.2).trans (disk_alter h.1 _)

theorem disk_adopt (hl : o ≠ l.self) (hr : o ≠ r.self) (h : o ∉ moved) :
    (adopt st p moved l r).disk o = st.disk o := by
  simp [adopt, Store.write, hl, hr, disk_reparent h]

@[simp] theorem header_adopt : header (adopt st p moved l r) = header st := by
  simp [adopt]

theorem disk_setNext {v : ℤ} (h : o ≠ q) : (setNext st q v).disk o = st.disk o := by
  unfold setNext
  split
  · rfl
  · exact disk_alter h _

theorem disk_setPrev {v : ℤ} (h : o ≠ q) : (setPrev st q v).disk o = st.disk o := by
  unfold setPrev
  split
  · rfl
  · exact disk_alter h _

theorem Inner.of_block (hk : (block n).kind = .nonLeaf) (hc : (block n).count = (k + 1 : ℕ)) :
    Inner n k :=
  ⟨hk, by push_cast at hc; exact hc⟩

theorem Leaf.of_block (hk : (block n).kind = .leaf) (hc : (block n).count = k) : Leaf n k :=
  ⟨hk, hc⟩

theorem inner_of_ok {cf : Config} {u : Row} (h : InnerOk cf u (Block.content (block n))) :
    Inner n (block n).keys.length :=
  Inner.of_block h.kind (h.count.trans (by rw [h.keys]; rfl))

end MqssdModel.BPlusTree.Pending
