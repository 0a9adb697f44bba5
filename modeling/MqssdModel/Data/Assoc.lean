import Mathlib.Data.List.Nodup
import Mathlib.Logic.Function.Basic

namespace MqssdModel.Data.Assoc

variable {κ ν : Type*} [DecidableEq κ] {m m₁ m₂ : List (κ × ν)} {k : κ} {v : ν}

/-- The finite map of a list of entries. -/
def table (m : List (κ × ν)) (k : κ) : Option ν := m.lookup k

theorem table_eq_none : table m k = none ↔ k ∉ m.map Prod.fst := by
  rw [table, List.lookup_eq_none_iff]
  constructor
  · intro h hk
    obtain ⟨e, he, rfl⟩ := List.mem_map.mp hk
    exact absurd (h e he) (by simp)
  · intro h e he
    have hne : k ≠ e.1 := fun hke ↦ h (hke ▸ List.mem_map_of_mem he)
    simpa using hne

theorem table_append (k : κ) : table (m₁ ++ m₂) k = (table m₁ k).or (table m₂ k) :=
  List.lookup_append

theorem table_eq_some (hn : (m.map Prod.fst).Nodup) : table m k = some v ↔ (k, v) ∈ m := by
  induction m with
  | nil => simp [table]
  | cons e m ih =>
    obtain ⟨k', v'⟩ := e
    rw [List.map_cons, List.nodup_cons] at hn
    by_cases hk : k = k'
    · subst hk
      have hout : (k, v) ∉ m := fun hm ↦ hn.1 (List.mem_map.mpr ⟨_, hm, rfl⟩)
      simp [table, hout, eq_comm]
    · have hcons : table ((k', v') :: m) k = table m k := by
        have hb : (k == k') = false := beq_eq_false_iff_ne.mpr hk
        rw [table, List.lookup_cons, hb]
        rfl
      rw [hcons, ih hn.2]
      simp [hk]

theorem table_insert (hk : k ∉ (m₁ ++ m₂).map Prod.fst) :
    table (m₁ ++ (k, v) :: m₂) = Function.update (table (m₁ ++ m₂)) k (some v) := by
  rw [List.map_append, List.mem_append, not_or] at hk
  funext x
  by_cases hx : x = k
  · subst hx
    rw [Function.update_self, table_append, table_eq_none.mpr hk.1, Option.none_or]
    simp [table]
  · have hcons : table ((k, v) :: m₂) x = table m₂ x := by
      have hb : (x == k) = false := beq_eq_false_iff_ne.mpr hx
      rw [table, List.lookup_cons, hb]
      rfl
    rw [Function.update_of_ne hx, table_append, table_append, hcons]

theorem table_remove (hn : ((m₁ ++ (k, v) :: m₂).map Prod.fst).Nodup) :
    table (m₁ ++ m₂) = Function.update (table (m₁ ++ (k, v) :: m₂)) k none := by
  have hk : k ∉ (m₁ ++ m₂).map Prod.fst := by
    rw [List.map_append, List.map_cons, List.nodup_middle, List.nodup_cons] at hn
    rw [List.map_append]
    exact hn.1
  rw [table_insert hk, Function.update_idem]
  funext x
  by_cases hx : x = k
  · rw [hx, Function.update_self, table_eq_none.mpr hk]
  · rw [Function.update_of_ne hx]

end MqssdModel.Data.Assoc
