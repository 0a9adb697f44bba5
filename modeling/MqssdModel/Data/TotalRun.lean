import Mathlib.Tactic.SplitIfs

namespace MqssdModel.Data.TotalRun

variable {σ ε α β : Type} {s : σ} {P Q : α → σ → Prop} {R : β → σ → Prop}

/-- From `s` the program ends without an error, in a result and a state that satisfy `Q`. -/
def Runs (f : StateT σ (Except ε) α) (s : σ) (Q : α → σ → Prop) : Prop :=
  ∃ a s', f s = .ok (a, s') ∧ Q a s'

theorem Runs.seq {f : StateT σ (Except ε) α} {g : α → StateT σ (Except ε) β}
    (hf : Runs f s P) (hg : ∀ a s', P a s' → Runs (g a) s' R) : Runs (f >>= g) s R := by
  obtain ⟨a, s₁, hok, hp⟩ := hf
  obtain ⟨b, s₂, hok', hr⟩ := hg a s₁ hp
  refine ⟨b, s₂, ?_, hr⟩
  change (f s >>= fun p ↦ g p.1 p.2) = _
  rw [hok]
  exact hok'

theorem Runs.mono {f : StateT σ (Except ε) α} (hf : Runs f s P)
    (h : ∀ a s', P a s' → Q a s') : Runs f s Q := by
  obtain ⟨a, s', hok, hp⟩ := hf
  exact ⟨a, s', hok, h a s' hp⟩

theorem runs_pure {a : α} (h : Q a s) : Runs (pure a : StateT σ (Except ε) α) s Q :=
  ⟨a, s, rfl, h⟩

theorem runs_get_bind {g : σ → StateT σ (Except ε) α} (h : Runs (g s) s Q) :
    Runs (get >>= g) s Q := h

theorem runs_set {s' : σ} {Q : PUnit → σ → Prop} (h : Q ⟨⟩ s') :
    Runs (set s' : StateT σ (Except ε) PUnit) s Q :=
  ⟨⟨⟩, s', rfl, h⟩

theorem runs_modify {f : σ → σ} {Q : PUnit → σ → Prop} (h : Q ⟨⟩ (f s)) :
    Runs (modify f : StateT σ (Except ε) PUnit) s Q :=
  ⟨⟨⟩, f s, rfl, h⟩

theorem runs_modify_bind {f : σ → σ} {g : PUnit → StateT σ (Except ε) α}
    (h : Runs (g ⟨⟩) (f s) Q) : Runs (modify f >>= g) s Q := h

/-- A program that runs has one outcome only. -/
theorem Runs.unique {f : StateT σ (Except ε) α} {a : α} {s' : σ} (h : Runs f s Q)
    (hok : f s = .ok (a, s')) : Q a s' := by
  obtain ⟨b, s₁, hok', hq⟩ := h
  rw [hok] at hok'
  cases hok'
  exact hq

section Errors

variable {f : StateT σ (Except ε) α} {g : α → StateT σ (Except ε) β} {e : ε}

theorem bind_error (h : f s = .error e) : (f >>= g) s = .error e := by
  change (f s >>= fun p ↦ g p.1 p.2) = _
  rw [h]
  rfl

theorem Runs.seq_error (hf : Runs f s P) (hg : ∀ a s', P a s' → g a s' = .error e) :
    (f >>= g) s = .error e := by
  obtain ⟨a, s', hok, hp⟩ := hf
  change (f s >>= fun p ↦ g p.1 p.2) = _
  rw [hok]
  exact hg a s' hp

end Errors

section Refinement

/-- Wherever `f` ends without an error, `g` ends in the same way. -/
def Refines (f g : StateT σ (Except ε) α) : Prop := ∀ s r, f s = .ok r → g s = .ok r

theorem refines_refl (f : StateT σ (Except ε) α) : Refines f f := fun _ _ h ↦ h

theorem bind_eq_ok {f : StateT σ (Except ε) α} {g : α → StateT σ (Except ε) β} {r : β × σ} :
    (f >>= g) s = .ok r ↔ ∃ a s', f s = .ok (a, s') ∧ g a s' = .ok r := by
  change (f s >>= fun p ↦ g p.1 p.2) = _ ↔ _
  cases f s with
  | error e => simp [bind, Except.bind]
  | ok p =>
    constructor
    · exact fun h ↦ ⟨p.1, p.2, rfl, h⟩
    · rintro ⟨a, s', hp, h⟩
      cases hp
      exact h

theorem Refines.bind {f f' : StateT σ (Except ε) α} {g g' : α → StateT σ (Except ε) β}
    (hf : Refines f f') (hg : ∀ a, Refines (g a) (g' a)) : Refines (f >>= g) (f' >>= g') := by
  intro s r h
  obtain ⟨a, s', hok, hr⟩ := bind_eq_ok.mp h
  exact bind_eq_ok.mpr ⟨a, s', hf s _ hok, hg a s' r hr⟩

/-- A common start. -/
theorem refines_seq {f : StateT σ (Except ε) α} {g g' : α → StateT σ (Except ε) β}
    (hg : ∀ a, Refines (g a) (g' a)) : Refines (f >>= g) (f >>= g') :=
  (refines_refl f).bind hg

theorem refines_ite {p : Prop} [Decidable p] {f f' g g' : StateT σ (Except ε) α}
    (hf : Refines f f') (hg : Refines g g') :
    Refines (if p then f else g) (if p then f' else g') := by
  split_ifs
  · exact hf
  · exact hg

/-- A test that changes nothing can be left out. -/
theorem Refines.skip {test : StateT σ (Except ε) α} {f : α → StateT σ (Except ε) β}
    {g : StateT σ (Except ε) β} (htest : ∀ s a s', test s = .ok (a, s') → s' = s)
    (h : ∀ a, Refines (f a) g) : Refines (test >>= f) g := by
  intro s r hr
  obtain ⟨a, s', hok, hf⟩ := bind_eq_ok.mp hr
  rw [htest s a s' hok] at hf
  exact h a s r hf

theorem Runs.of_refines {f g : StateT σ (Except ε) α} (h : Runs f s Q) (hfg : Refines f g) :
    Runs g s Q := by
  obtain ⟨a, s', hok, hq⟩ := h
  exact ⟨a, s', hfg s _ hok, hq⟩

end Refinement

end MqssdModel.Data.TotalRun
