import MqssdModel.BPlusTree.Lookup
import MqssdModel.BPlusTree.Reading

namespace MqssdModel.BPlusTree.GetRun

open Data.Arrays Data.Assoc Data.Rows Data.TotalRun Machine Caching Removal Views Shape Allocation
  Ordering Steps Search Descent LeafLevel Boot Lookup Put History Reading

/-- What `bplus_tree_get` returns for a key with the value `v`. -/
def answer (v : Option ℤ) : ℤ :=
  match v with
  | some d => wrap 32 d
  | none => -1

variable {cf : Config} {t₀ t : Tree} {st : Store} {a b : Row} {o d k : ℤ} {us : List Row} {n : Node}
  {c : Ptr} {m : List (ℤ × ℤ)} {ops : List (ℤ × ℤ)} {fuel : ℕ}

theorem wrap_eq_iff {x : ℤ} : wrap 32 x = x ↔ -2 ^ 31 ≤ x ∧ x < 2 ^ 31 := by
  constructor
  · intro h
    have hlt : wrap 32 x < (2 ^ 32 + 1 : ℕ) / 2 := Int.bmod_lt (by norm_num)
    have hle : -((2 ^ 32 : ℕ) / 2 : ℤ) ≤ wrap 32 x := Int.le_bmod (by norm_num)
    rw [h] at hlt hle
    norm_num at hlt hle ⊢
    omega
  · rintro ⟨hle, hlt⟩
    exact Int.bmod_eq_of_le (by norm_num; omega) (by norm_num; omega)

theorem searchLeaf_run (h : AtLeaf cf st a o b us d k n) (hseen : Seen t₀ t st c n) :
    Runs (searchLeaf cf k c) t fun x t' ↦ Still t₀ t' ∧
      x = answer (table (entries st (a ++ .node o :: b)) k) := by
  have hcount : 0 ≤ keyCount n := by
    rw [h.keyCount_eq]
    omega
  have hnodup : ((entries st (a ++ .node o :: b)).map Prod.fst).Nodup :=
    (h.good.ordered.entries (Leaves.lengths h.good.leaves)).imp fun hlt ↦ hlt.ne
  refine hseen.node_bind ?_
  by_cases hk : k ∈ (block n).keys
  · obtain ⟨ks₁, ks₂, vs₁, v, vs₂, hkeys, hvals, hlen, -, h₁, h₂⟩ := h.exists_entry hk
    have hdata : front n.data (block n).vals.length = vs₁ ++ v :: vs₂ := by
      have hb := congrArg Block.vals h.leaf.block_eq
      exact hb.symm.trans hvals
    have hget : (front n.data (block n).vals.length)[ks₁.length]? = some v := by
      rw [hdata, hlen]
      simp
    obtain ⟨hlt, hv⟩ := getElem?_front hget
    have hcap : ((block n).vals.length : ℤ) ≤ cf.maxEntries := h.ok.cap
    have hmem : (k, v) ∈ entries st (a ++ .node o :: b) := by
      rw [h.entries_eq, hkeys, hvals, List.zip_append hlen]
      simp
    rw [search_found hcount hkeys h₁ h₂, if_pos (by omega)]
    refine (hseen.load_run (Q := fun x t' ↦ x = v ∧ Still t₀ t')
      ⟨by omega, by change (ks₁.length : ℤ) < cf.maxEntries; omega⟩ ⟨hv, hseen.still⟩).seq ?_
    rintro _ t' ⟨rfl, hstill⟩
    refine runs_pure ⟨hstill, ?_⟩
    rw [(table_eq_some hnodup).mpr hmem]
    rfl
  · obtain ⟨ks₁, ks₂, vs₁, vs₂, hkeys, -, -, -, h₁, h₂⟩ := h.exists_gap hk
    have hnone := table_eq_none.mpr fun hm ↦ hk (h.mem_entries.mp hm)
    rw [search_absent hcount hkeys h₁ h₂, if_neg (by omega)]
    refine runs_pure ⟨hseen.still, ?_⟩
    rw [hnone]
    rfl

theorem get_run (hcf : Sized cf) (h : Stands cf t m d) (hfuel : m.length < fuel) :
    Runs (bplusTreeGet cf fuel k) t fun x t' ↦ Still t t' ∧ x = answer (table m k) := by
  obtain ⟨st, hrep, ⟨rfl, hroot, -⟩ | ⟨w, us, h, rfl⟩⟩ := h
  · exact runs_get_bind (atEnd_run (hrep.root.trans hroot) (runs_pure ⟨still_refl, rfl⟩))
  · have hlen := length_levels h
    refine runs_get_bind (atLeaf_run hcf h hrep (by omega) ?_)
    intro a b o t' c n hw hleaf hseen _ _
    subst hw
    exact searchLeaf_run hleaf hseen

end MqssdModel.BPlusTree.GetRun
