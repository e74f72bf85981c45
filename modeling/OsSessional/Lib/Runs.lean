import Mathlib.Data.List.Basic

/-!
# Runs of a labelled system

A system is a step relation with labels. A run strings steps together; an invariant that every
step keeps holds along every run, and a simulation of steps carries every run over to the other
system with the same labels.
-/

namespace OsSessional

variable {σ τ α : Type*}

/-- The labels of the steps from one state to another. -/
inductive Run (step : σ → α → σ → Prop) : σ → List α → σ → Prop
  | nil (s : σ) : Run step s [] s
  | cons {s s₁ s' : σ} {a : α} {as : List α} (hstep : step s a s₁) (hrest : Run step s₁ as s') :
      Run step s (a :: as) s'

namespace Run

variable {step : σ → α → σ → Prop} {s s₁ s' : σ} {a : α} {as bs : List α}

/-- The invariant rule. -/
theorem keeps {I : σ → Prop} (hstep : ∀ s a s', I s → step s a s' → I s')
    (h : Run step s as s') (hI : I s) : I s' := by
  induction h with
  | nil s => exact hI
  | cons h₁ _ ih => exact ih (hstep _ _ _ hI h₁)

theorem append (h : Run step s as s₁) (h' : Run step s₁ bs s') : Run step s (as ++ bs) s' := by
  induction h with
  | nil s => exact h'
  | cons h₁ _ ih => exact .cons h₁ (ih h')

/-- Every step of `step` is one of `step'`. -/
theorem mono {step' : σ → α → σ → Prop} (hstep : ∀ s a s', step s a s' → step' s a s')
    (h : Run step s as s') : Run step' s as s' := by
  induction h with
  | nil s => exact .nil s
  | cons h₁ _ ih => exact .cons (hstep _ _ _ h₁) ih

/-- The simulation rule: every run of `step` is matched label by label by one of `spec`. -/
theorem simulate {spec : τ → α → τ → Prop} {R : σ → τ → Prop}
    (hstep : ∀ s t a s', R s t → step s a s' → ∃ t', spec t a t' ∧ R s' t')
    (h : Run step s as s') {t : τ} (hR : R s t) : ∃ t', Run spec t as t' ∧ R s' t' := by
  induction h generalizing t with
  | nil s => exact ⟨t, .nil t, hR⟩
  | cons h₁ _ ih =>
    obtain ⟨t₁, hspec, hR₁⟩ := hstep _ _ _ _ hR h₁
    obtain ⟨t', hrun, hR'⟩ := ih hR₁
    exact ⟨t', .cons hspec hrun, hR'⟩

/-- A system whose steps are computed runs as a fold. -/
theorem of_foldlM {f : σ → α → Option σ} :
    ∀ {as : List α} {s s' : σ}, as.foldlM f s = some s' →
      Run (fun s a s' => f s a = some s') s as s' := by
  intro as
  induction as with
  | nil =>
    intro s s' h
    obtain rfl : s = s' := by simpa using h
    exact .nil s
  | cons a as ih =>
    intro s s' h
    rw [List.foldlM_cons] at h
    obtain ⟨s₁, h₁, h₂⟩ := Option.bind_eq_some_iff.mp h
    exact .cons h₁ (ih h₂)

theorem to_foldlM {f : σ → α → Option σ} (h : Run (fun s a s' => f s a = some s') s as s') :
    as.foldlM f s = some s' := by
  induction h with
  | nil s => rfl
  | cons h₁ _ ih =>
    rw [List.foldlM_cons, h₁]
    exact ih

end Run

end OsSessional
