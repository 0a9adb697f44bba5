import Mathlib.Data.List.Basic
import Mathlib.Logic.Function.Basic

namespace MqssdModel.Data.Interleave

variable {ι σ s κ ε α : Type} [DecidableEq ι]

/-- Components with a state each, and a state that they share. -/
structure World (ι σ s : Type) where
  shared : σ
  own : ι → s

/-- The component `i` has made a step. -/
def World.moved (p : World ι σ s) (i : ι) (c : σ) (x : s) : World ι σ s :=
  ⟨c, Function.update p.own i x⟩

theorem World.moved_own_self (p : World ι σ s) (i : ι) (c : σ) (x : s) :
    (p.moved i c x).own i = x := by
  simp [World.moved]

theorem World.moved_own_of_ne {i j : ι} (h : j ≠ i) (p : World ι σ s) (c : σ) (x : s) :
    (p.moved i c x).own j = p.own j := by
  simp [World.moved, h]

/-- Calls of the components in the order given, each with its answer. -/
def run (step : ι → κ → σ → s → Except ε (α × σ × s)) :
    List (ι × κ) → World ι σ s → Except ε (List (ι × α) × World ι σ s)
  | [], p => .ok ([], p)
  | (i, k) :: calls, p =>
    match step i k p.shared (p.own i) with
    | .error e => .error e
    | .ok (a, c, x) =>
      match run step calls (p.moved i c x) with
      | .error e => .error e
      | .ok (as, p) => .ok ((i, a) :: as, p)

/-- The part of a list that is about one component. -/
def only {β : Type} (i : ι) (l : List (ι × β)) : List (ι × β) := l.filter fun e ↦ e.1 = i

/-- Two outcomes with the same fault, or with the same answer and the same own state. -/
inductive Agree (J : s → σ → σ → Prop) :
    Except ε (α × σ × s) → Except ε (α × σ × s) → Prop
  | fail (e : ε) : Agree J (.error e) (.error e)
  | ok {a : α} {c c₀ : σ} {x : s} : J x c c₀ → Agree J (.ok (a, c, x)) (.ok (a, c₀, x))

/-- `J x c c₀` says that a component in the state `x` cannot tell the shared state `c` from `c₀`,
which it would find if it were alone. -/
structure Isolated (step : ι → κ → σ → s → Except ε (α × σ × s)) (Fits : ι → κ → Prop)
    (J : s → σ → σ → Prop) : Prop where
  own : ∀ {i k x c c₀}, Fits i k → J x c c₀ → Agree J (step i k c x) (step i k c₀ x)
  other : ∀ {j k x y c c₀ c₁ c' a z}, Fits j k → J y c c₁ → J x c c₀ →
    step j k c y = .ok (a, c', z) → J x c' c₀

variable {step : ι → κ → σ → s → Except ε (α × σ × s)} {Fits : ι → κ → Prop}
  {J : s → σ → σ → Prop} {calls : List (ι × κ)} {p : World ι σ s} {i : ι} {e : ε}

theorem only_cons_self {β : Type} (b : β) (l : List (ι × β)) :
    only i ((i, b) :: l) = (i, b) :: only i l :=
  List.filter_cons_of_pos (by simp)

theorem only_cons_ne {β : Type} {j : ι} (h : j ≠ i) (b : β) (l : List (ι × β)) :
    only i ((j, b) :: l) = only i l :=
  List.filter_cons_of_neg (by simpa using h)

theorem run_cons_error {k : κ} (h : step i k p.shared (p.own i) = .error e) :
    run step ((i, k) :: calls) p = .error e := by
  rw [run, h]

theorem run_cons_ok {k : κ} {a : α} {c : σ} {x : s} {as : List (ι × α)} {q : World ι σ s}
    (h : step i k p.shared (p.own i) = .ok (a, c, x))
    (hrun : run step calls (p.moved i c x) = .ok (as, q)) :
    run step ((i, k) :: calls) p = .ok ((i, a) :: as, q) := by
  rw [run, h]
  dsimp only
  rw [hrun]

theorem run_cons_rest_error {k : κ} {a : α} {c : σ} {x : s}
    (h : step i k p.shared (p.own i) = .ok (a, c, x))
    (hrun : run step calls (p.moved i c x) = .error e) :
    run step ((i, k) :: calls) p = .error e := by
  rw [run, h]
  dsimp only
  rw [hrun]

theorem run_eq_ok {k : κ} {a : α} {c : σ} {x : s} {bs : List (ι × α)} {q : World ι σ s}
    (h : step i k p.shared (p.own i) = .ok (a, c, x))
    (hrun : run step ((i, k) :: calls) p = .ok (bs, q)) :
    ∃ as, run step calls (p.moved i c x) = .ok (as, q) ∧ bs = (i, a) :: as := by
  rw [run, h] at hrun
  dsimp only at hrun
  split at hrun
  · cases hrun
  · rename_i as q' hq
    cases hrun
    exact ⟨as, hq, rfl⟩

theorem run_eq_error {k : κ} {a : α} {c : σ} {x : s}
    (h : step i k p.shared (p.own i) = .ok (a, c, x))
    (hrun : run step ((i, k) :: calls) p = .error e) :
    run step calls (p.moved i c x) = .error e := by
  rw [run, h] at hrun
  dsimp only at hrun
  split at hrun
  · rename_i e' he
    cases hrun
    exact he
  · cases hrun

/-- The run of all components gives to each what it gets alone, and fails only where one of them
fails alone. -/
structure Apart (step : ι → κ → σ → s → Except ε (α × σ × s)) (calls : List (ι × κ))
    (p : World ι σ s) (alone : ι → World ι σ s) : Prop where
  ok : ∀ as p', run step calls p = .ok (as, p') →
    ∀ i, ∃ q, run step (only i calls) (alone i) = .ok (only i as, q) ∧ q.own i = p'.own i
  error : ∀ e, run step calls p = .error e → ∃ i, run step (only i calls) (alone i) = .error e

theorem run_apart (h : Isolated step Fits J) (hfits : ∀ e ∈ calls, Fits e.1 e.2)
    {alone : ι → World ι σ s} (hown : ∀ i, (alone i).own i = p.own i)
    (hJ : ∀ i, J (p.own i) p.shared (alone i).shared) : Apart step calls p alone := by
  induction calls generalizing p alone with
  | nil =>
    refine ⟨fun as p' hrun i ↦ ?_, fun e he ↦ nomatch he⟩
    cases hrun
    exact ⟨alone i, rfl, hown i⟩
  | cons call calls ih =>
    obtain ⟨j, k⟩ := call
    have hagree := h.own (hfits (j, k) List.mem_cons_self) (hJ j)
    generalize hx : step j k p.shared (p.own j) = x at hagree
    generalize hy : step j k (alone j).shared (p.own j) = y at hagree
    rw [← hown j] at hy
    cases hagree with
    | fail e =>
      refine ⟨fun as p' hrun ↦ ?_, fun e' he ↦ ⟨j, ?_⟩⟩
      · rw [run_cons_error hx] at hrun
        cases hrun
      · rw [run_cons_error hx] at he
        rw [only_cons_self, run_cons_error hy, he]
    | @ok a c c₀ x hjx =>
      -- the component `j` alone makes the same step, the others alone make none
      have hrest : Apart step calls (p.moved j c x)
          (Function.update alone j ((alone j).moved j c₀ x)) := by
        refine ih (fun e he ↦ hfits e (List.mem_cons_of_mem _ he)) (fun i ↦ ?_) fun i ↦ ?_
        · by_cases hij : i = j
          · subst hij
            rw [Function.update_self, World.moved_own_self, World.moved_own_self]
          · rw [Function.update_of_ne hij, World.moved_own_of_ne hij]
            exact hown i
        · by_cases hij : i = j
          · subst hij
            rw [Function.update_self, World.moved_own_self]
            exact hjx
          · rw [Function.update_of_ne hij, World.moved_own_of_ne hij]
            exact h.other (hfits (j, k) List.mem_cons_self) (hJ j) (hJ i) hx
      refine ⟨fun as p' hrun i ↦ ?_, fun e he ↦ ?_⟩
      · obtain ⟨as, hrun', rfl⟩ := run_eq_ok hx hrun
        obtain ⟨q, hq, hqi⟩ := hrest.ok as p' hrun' i
        refine ⟨q, ?_, hqi⟩
        by_cases hij : j = i
        · subst hij
          rw [Function.update_self] at hq
          rw [only_cons_self, run_cons_ok hy hq, only_cons_self]
        · rw [Function.update_of_ne (Ne.symm hij)] at hq
          rw [only_cons_ne hij, hq, only_cons_ne hij]
      · obtain ⟨i, hi⟩ := hrest.error e (run_eq_error hx he)
        refine ⟨i, ?_⟩
        by_cases hij : j = i
        · subst hij
          rw [Function.update_self] at hi
          rw [only_cons_self, run_cons_rest_error hy hi]
        · rw [Function.update_of_ne (Ne.symm hij)] at hi
          rw [only_cons_ne hij, hi]

end MqssdModel.Data.Interleave
