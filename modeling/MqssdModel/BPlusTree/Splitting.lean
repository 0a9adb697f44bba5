import MqssdModel.BPlusTree.Pending

namespace MqssdModel.BPlusTree.Splitting

open Data.Rows Data.Chain Machine Caching Routines InnerSpecs Views Shape Pending

section Links

variable {st st' : Store} {as bs : List ℤ} {f q o : ℤ}

theorem headD_mem : bs.headD invalidOffset ∈ bs ∨ bs.headD invalidOffset = invalidOffset := by
  cases bs with
  | nil => exact Or.inr rfl
  | cons b bs => exact Or.inl List.mem_cons_self

theorem getLastD_mem : as.getLastD invalidOffset ∈ as ∨ as.getLastD invalidOffset = invalidOffset := by
  rcases List.eq_nil_or_concat' as with rfl | ⟨as, a, rfl⟩
  · exact Or.inr rfl
  · simp

theorem ne_headD (ho : o ∉ bs) (hi : o ≠ invalidOffset) : o ≠ bs.headD invalidOffset := fun h ↦
  headD_mem.elim (fun hm ↦ ho (h ▸ hm)) fun he ↦ hi (h.trans he)

theorem ne_getLastD (ho : o ∉ as) (hi : o ≠ invalidOffset) : o ≠ as.getLastD invalidOffset :=
  fun h ↦ getLastD_mem.elim (fun hm ↦ ho (h ▸ hm)) fun he ↦ hi (h.trans he)

theorem linked_right (h : Linked (links st) invalidOffset (as ++ q :: bs) invalidOffset)
    (hnd : (f :: (as ++ q :: bs)).Nodup) (hinv : invalidOffset ∉ as ++ q :: bs)
    (hq : links st' q = some (as.getLastD invalidOffset, f))
    (hf : links st' f = some (q, bs.headD invalidOffset))
    (hne : ∀ o, o ≠ q → o ≠ f → o ≠ invalidOffset → links st' o =
      if o = bs.headD invalidOffset then (links st o).map fun l ↦ (f, l.2) else links st o) :
    Linked (links st') invalidOffset (as ++ q :: f :: bs) invalidOffset := by
  obtain ⟨hfn, hnd⟩ := List.nodup_cons.mp hnd
  have hne' : ∀ o ∈ as ++ bs, o ≠ q ∧ o ≠ f ∧ o ≠ invalidOffset := by
    intro o ho
    have hm : o ∈ as ++ q :: bs := by
      simp only [List.mem_append, List.mem_cons] at ho ⊢
      tauto
    refine ⟨?_, fun he ↦ hfn (he ▸ hm), fun he ↦ hinv (he ▸ hm)⟩
    rintro rfl
    exact (List.nodup_cons.mp (List.nodup_middle.mp hnd)).1 ho
  refine h.insert_right (e := invalidOffset) hnd (fun o ho ↦ ?_) hq hf fun o ho ↦ ?_
  · obtain ⟨h₁, h₂, h₃⟩ := hne' o (List.mem_append_left _ ho)
    have hdis : o ∉ bs := fun hb ↦ List.disjoint_of_nodup_append hnd ho (List.mem_cons_of_mem _ hb)
    rw [hne o h₁ h₂ h₃, if_neg (ne_headD hdis h₃)]
  · obtain ⟨h₁, h₂, h₃⟩ := hne' o (List.mem_append_right _ ho)
    exact hne o h₁ h₂ h₃

theorem linked_left (h : Linked (links st) invalidOffset (as ++ q :: bs) invalidOffset)
    (hnd : (f :: (as ++ q :: bs)).Nodup) (hinv : invalidOffset ∉ as ++ q :: bs)
    (hf : links st' f = some (as.getLastD invalidOffset, q))
    (hq : links st' q = some (f, bs.headD invalidOffset))
    (hne : ∀ o, o ≠ q → o ≠ f → o ≠ invalidOffset → links st' o =
      if o = as.getLastD invalidOffset then (links st o).map fun l ↦ (l.1, f) else links st o) :
    Linked (links st') invalidOffset (as ++ f :: q :: bs) invalidOffset := by
  obtain ⟨hfn, hnd⟩ := List.nodup_cons.mp hnd
  have hne' : ∀ o ∈ as ++ bs, o ≠ q ∧ o ≠ f ∧ o ≠ invalidOffset := by
    intro o ho
    have hm : o ∈ as ++ q :: bs := by
      simp only [List.mem_append, List.mem_cons] at ho ⊢
      tauto
    refine ⟨?_, fun he ↦ hfn (he ▸ hm), fun he ↦ hinv (he ▸ hm)⟩
    rintro rfl
    exact (List.nodup_cons.mp (List.nodup_middle.mp hnd)).1 ho
  refine h.insert_left (e := invalidOffset) hnd (fun o ho ↦ ?_) hf hq fun o ho ↦ ?_
  · obtain ⟨h₁, h₂, h₃⟩ := hne' o (List.mem_append_left _ ho)
    exact hne o h₁ h₂ h₃
  · obtain ⟨h₁, h₂, h₃⟩ := hne' o (List.mem_append_right _ ho)
    have hdis : o ∉ as := fun ha ↦ List.disjoint_of_nodup_append hnd ha (List.mem_cons_of_mem _ ho)
    rw [hne o h₁ h₂ h₃, if_neg (ne_getLastD hdis h₃)]

end Links

/-- The non-leaf `q` on a level with the other nodes `row` shares its children, with new ones
among them, with the new node `f`. -/
structure Halves (st st' : Store) (row : List ℤ) (q f : ℤ) (cq cn : Content) : Prop where
  content : ∀ o, o ≠ q → o ≠ f → content st' o = content st o
  par : ∀ o, o ≠ f → o ∉ cq.vals ++ cn.vals → par st' o = par st o
  links : ∀ o, o ≠ q → o ≠ f → o ∉ row → o ≠ invalidOffset → links st' o = links st o
  disk : ∀ o, o ≠ q → o ≠ f → o ∉ row → o ≠ invalidOffset → o ∉ cq.vals ++ cn.vals →
    st'.disk o = st.disk o
  old : Views.content st' q = some cq ∧ ∀ v ∈ cq.vals, Views.par st' v = some q
  new : Views.content st' f = some cn ∧ ∀ v ∈ cn.vals, Views.par st' v = some f

variable {cf : Config} {st S : Store} {l r x y : Node} {row xs ys : List ℤ} {q f : ℤ}

theorem halves (hSc : ∀ o, content S o = content st o) (hSp : ∀ o, par S o = par st o)
    (hSd : ∀ o, o ∉ row → o ≠ invalidOffset → S.disk o = st.disk o)
    (hnd : ((block x).vals ++ (block y).vals ++ [q, f]).Nodup)
    (hpar : ∀ v ∈ (block x).vals ++ (block y).vals, v ≠ l.self → v ≠ r.self →
      par (pending st l r) v = some q)
    (hparq : par (pending st l r) q = some x.parent)
    (hvals : (block y).vals = xs ++ l.self :: r.self :: ys) (hx : x.self = q) (hy : y.self = f) :
    Halves (pending st l r) (pending (adopt S f (xs ++ ys) l r) x y) row q f
      (Block.content (block x)) (Block.content (block y)) := by
  have hl : l.self ∈ (block y).vals := by rw [hvals]; simp
  have hr : r.self ∈ (block y).vals := by rw [hvals]; simp
  have hmoved : ∀ v ∈ xs ++ ys, v ∈ (block y).vals := by
    intro v hv
    rw [hvals]
    simp only [List.mem_append, List.mem_cons] at hv ⊢
    tauto
  obtain ⟨hV, hqf, hout⟩ := List.nodup_append'.mp hnd
  have hne : q ≠ f := by simpa using hqf
  have hxy := List.disjoint_of_nodup_append hV
  have hVne : ∀ v ∈ (block x).vals ++ (block y).vals, v ≠ x.self ∧ v ≠ y.self := fun v hv ↦
    ⟨fun he ↦ hout hv (by simp [he, hx]), fun he ↦ hout hv (by simp [he, hy])⟩
  have hld : ∀ o, o ∉ row → o ≠ invalidOffset → links S o = links st o := fun o ho hi ↦ by
    rw [links, hSd o ho hi, links]
  subst hx hy
  refine ⟨fun o hq hf ↦ ?_, fun o hf hv ↦ ?_, fun o hq hf ho hi ↦ ?_, fun o hq hf ho hi hv ↦ ?_,
    ⟨?_, fun v hv ↦ ?_⟩, ?_, fun v hv ↦ ?_⟩
  · rw [content_pending, if_neg hf, if_neg hq, content_adopt, content_pending, hSc,
      content_pending]
  · have hv' : o ∉ (block x).vals ++ (block y).vals := hv
    have hol : o ≠ l.self := fun he ↦ hv' (List.mem_append_right _ (he ▸ hl))
    have hor : o ≠ r.self := fun he ↦ hv' (List.mem_append_right _ (he ▸ hr))
    have hom : o ∉ xs ++ ys := fun hm ↦ hv' (List.mem_append_right _ (hmoved o hm))
    rw [par_pending, if_neg hf]
    by_cases hq : o = x.self
    · rw [if_pos hq, hq, hparq]
    · rw [if_neg hq, par_adopt, if_neg (by tauto), if_neg hom, hSp, par_pending, if_neg hor,
        if_neg hol]
  · rw [links_pending, if_neg hf, if_neg hq, links_adopt, links_pending, hld o ho hi,
      links_pending]
  · have hv' : o ∉ (block x).vals ++ (block y).vals := hv
    have hol : o ≠ l.self := fun he ↦ hv' (List.mem_append_right _ (he ▸ hl))
    have hor : o ≠ r.self := fun he ↦ hv' (List.mem_append_right _ (he ▸ hr))
    have hom : o ∉ xs ++ ys := fun hm ↦ hv' (List.mem_append_right _ (hmoved o hm))
    rw [disk_pending hq hf, disk_adopt hol hor hom, hSd o ho hi, disk_pending hol hor]
  · rw [content_pending, if_neg hne, if_pos rfl]
  · have hv' : v ∈ (block x).vals := hv
    obtain ⟨h₁, h₂⟩ := hVne v (List.mem_append_left _ hv')
    have hol : v ≠ l.self := fun he ↦ hxy hv' (he ▸ hl)
    have hor : v ≠ r.self := fun he ↦ hxy hv' (he ▸ hr)
    have hom : v ∉ xs ++ ys := fun hm ↦ hxy hv' (hmoved v hm)
    have hp := hpar v (List.mem_append_left _ hv') hol hor
    rw [par_pending, if_neg hor, if_neg hol] at hp
    rw [par_pending, if_neg h₂, if_neg h₁, par_adopt, if_neg (by tauto), if_neg hom, hSp, hp]
  · rw [content_pending, if_pos rfl]
  · have hv' : v ∈ (block y).vals := hv
    obtain ⟨h₁, h₂⟩ := hVne v (List.mem_append_right _ hv')
    rw [par_pending, if_neg h₂, if_neg h₁, par_adopt]
    by_cases hlr : v = r.self ∨ v = l.self
    · rw [if_pos hlr]
    · have hm : v ∈ xs ++ ys := by
        have hv'' := hvals ▸ hv'
        simp only [List.mem_append, List.mem_cons] at hv'' ⊢
        tauto
      rw [not_or] at hlr
      have hp := hpar v (List.mem_append_right _ hv') hlr.2 hlr.1
      rw [par_pending, if_neg hlr.1, if_neg hlr.2] at hp
      rw [if_neg (by tauto), if_pos hm, hSp, hp, Option.map_some]

end MqssdModel.BPlusTree.Splitting
