import Mathlib.Data.List.Nodup

namespace MqssdModel.Data.OrderedDict

/-- A dictionary whose entries stand in the order in which their keys came in. -/
structure Dict (κ ν : Type*) where
  entries : List (κ × ν)
  nodup : (entries.map Prod.fst).Nodup
  deriving DecidableEq

variable {κ ν : Type*}

namespace Dict

def empty : Dict κ ν := ⟨[], List.nodup_nil⟩

variable [DecidableEq κ]

def get? (d : Dict κ ν) (k : κ) : Option ν :=
  (d.entries.find? fun e ↦ e.1 = k).map Prod.snd

theorem fst_replace (k : κ) (v : ν) (es : List (κ × ν)) :
    (es.map fun e ↦ if e.1 = k then (k, v) else e).map Prod.fst = es.map Prod.fst := by
  rw [List.map_map]
  refine List.map_congr_left fun e _ ↦ ?_
  by_cases h : e.1 = k
  · simp [h]
  · simp [h]

/-- A key that is there keeps its place, a new one goes to the end. -/
def set (d : Dict κ ν) (k : κ) (v : ν) : Dict κ ν :=
  if h : k ∈ d.entries.map Prod.fst then
    ⟨d.entries.map fun e ↦ if e.1 = k then (k, v) else e, by rw [fst_replace]; exact d.nodup⟩
  else
    ⟨d.entries ++ [(k, v)], by
      rw [List.map_append]
      exact d.nodup.append (List.nodup_singleton k) (by simpa using h)⟩

def erase (d : Dict κ ν) (k : κ) : Dict κ ν :=
  ⟨d.entries.filter fun e ↦ e.1 ≠ k, d.nodup.sublist (List.filter_sublist.map Prod.fst)⟩

/-- Drops the first entry that holds `v`. -/
def eraseValue [DecidableEq ν] (d : Dict κ ν) (v : ν) : Dict κ ν :=
  ⟨d.entries.eraseP fun e ↦ e.2 = v, d.nodup.sublist ((List.eraseP_sublist).map Prod.fst)⟩

theorem get?_eq_some {d : Dict κ ν} {k : κ} {v : ν} :
    d.get? k = some v ↔ (k, v) ∈ d.entries := by
  obtain ⟨es, hes⟩ := d
  simp only [get?]
  induction es with
  | nil => simp
  | cons e es ih =>
    obtain ⟨k', v'⟩ := e
    simp only [List.map_cons, List.nodup_cons] at hes
    by_cases h : k' = k
    · subst h
      have hv : ∀ w, (k', w) ∉ es := fun w hw ↦ hes.1 (List.mem_map_of_mem hw)
      simp [hv, eq_comm]
    · have hk : k ≠ k' := fun he ↦ h he.symm
      simp only [List.find?_cons, h, decide_false, List.mem_cons, Prod.mk.injEq, hk, false_and,
        false_or]
      exact ih hes.2

@[simp] theorem get?_empty (k : κ) : (empty : Dict κ ν).get? k = none := rfl

theorem get?_set (d : Dict κ ν) (k k' : κ) (v : ν) :
    (d.set k v).get? k' = if k' = k then some v else d.get? k' := by
  refine Option.ext fun w ↦ ?_
  rw [get?_eq_some]
  unfold set
  split_ifs with hmem hk hk
  · subst hk
    simp only [List.mem_map, Option.some.injEq]
    constructor
    · rintro ⟨e, -, he⟩
      by_cases h : e.1 = k'
      · simpa [h] using he
      · rw [if_neg h] at he
        exact absurd (congrArg Prod.fst he) h
    · rintro rfl
      obtain ⟨e, he, hek⟩ := List.mem_map.mp hmem
      exact ⟨e, he, if_pos hek⟩
  · rw [get?_eq_some, List.mem_map]
    constructor
    · rintro ⟨e, he, hek⟩
      by_cases h : e.1 = k
      · rw [if_pos h] at hek
        exact absurd (congrArg Prod.fst hek).symm hk
      · rw [if_neg h] at hek
        rwa [← hek]
    · intro h
      exact ⟨(k', w), h, if_neg hk⟩
  · subst hk
    have hnot : ∀ u, (k', u) ∉ d.entries := fun u hu ↦ hmem (List.mem_map_of_mem hu)
    simp [hnot, eq_comm]
  · simp [get?_eq_some, hk]

theorem get?_erase (d : Dict κ ν) (k k' : κ) :
    (d.erase k).get? k' = if k' = k then none else d.get? k' := by
  refine Option.ext fun w ↦ ?_
  rw [get?_eq_some]
  split_ifs with hk
  · simp [erase, hk]
  · simp [erase, hk, get?_eq_some]

/-- If `v` has at most one key, erasing it takes that key out and nothing else. -/
theorem get?_eraseValue [DecidableEq ν] {d : Dict κ ν} {v : ν}
    (hv : ∀ k k', d.get? k = some v → d.get? k' = some v → k = k') (k : κ) :
    (d.eraseValue v).get? k = if d.get? k = some v then none else d.get? k := by
  obtain ⟨es, hes⟩ := d
  simp only [get?_eq_some] at hv
  refine Option.ext fun w ↦ ?_
  split_ifs with hk
  · rw [get?_eq_some] at hk ⊢
    simp only [eraseValue, iff_false]
    intro hw
    obtain rfl : w = v := by
      have h₁ := List.mem_of_mem_eraseP hw
      have hd : (⟨es, hes⟩ : Dict κ ν).get? k = some w := get?_eq_some.mpr h₁
      rw [get?_eq_some.mpr hk] at hd
      exact (Option.some.inj hd).symm
    obtain ⟨a, l₁, l₂, h₁, h₂, h₃, h₄⟩ :=
      List.exists_of_eraseP (p := fun e : κ × ν ↦ decide (e.2 = w)) hk (by simp)
    rw [h₄] at hw
    simp only [decide_eq_true_eq] at h₁ h₂
    change es = l₁ ++ a :: l₂ at h₃
    have ha : a = (k, w) := by
      refine Prod.ext (hv a.1 k ?_ hk) h₂
      rw [← h₂, h₃]
      simp
    have hnd := hes
    rw [h₃, ha, List.map_append, List.map_cons, List.nodup_middle, List.nodup_cons] at hnd
    refine hnd.1 ?_
    rw [← List.map_append]
    exact List.mem_map_of_mem hw
  · rw [get?_eq_some] at hk
    rw [get?_eq_some, get?_eq_some]
    simp only [eraseValue]
    by_cases hw : w = v
    · subst hw
      exact iff_of_false (fun h ↦ hk (List.mem_of_mem_eraseP h)) hk
    · exact List.mem_eraseP_of_neg (by simpa using hw)

theorem eq_empty_of_get? {d : Dict κ ν} (h : ∀ k, d.get? k = none) : d.entries = [] := by
  refine List.eq_nil_iff_forall_not_mem.mpr fun e he ↦ ?_
  have hs := get?_eq_some.mpr he
  rw [h e.1] at hs
  cases hs

end Dict

end MqssdModel.Data.OrderedDict
