import Mathlib.Order.Lattice

/-!
# Counted loops

A loop that applies a step for every number of a range, in order, with the rule that carries an
invariant through it.
-/

namespace OsSessional

variable {σ : Type*}

/-- `step n` was applied for `n = lo, …, hi - 1`. -/
inductive RangeRun (step : Nat → σ → σ → Prop) (hi : Nat) : Nat → σ → σ → Prop
  | done {lo : Nat} {s : σ} (h : hi ≤ lo) : RangeRun step hi lo s s
  | next {lo : Nat} {s s₁ s' : σ} (h : lo < hi) (hstep : step lo s s₁)
      (hrest : RangeRun step hi (lo + 1) s₁ s') : RangeRun step hi lo s s'

namespace RangeRun

variable {step : Nat → σ → σ → Prop} {lo hi : Nat} {s s' : σ}

/-- The loop rule: an indexed invariant that every step advances. -/
theorem keeps {I : Nat → σ → Prop}
    (hstep : ∀ n s s', lo ≤ n → n < hi → I n s → step n s s' → I (n + 1) s')
    (h : RangeRun step hi lo s s') (hI : I lo s) : I (max lo hi) s' := by
  induction h with
  | done h => rwa [max_eq_left h]
  | @next lo s s₁ s' h h₁ _ ih =>
    have hnext : I (lo + 1) s₁ := hstep lo s s₁ (le_refl _) h hI h₁
    have hmax : max lo hi = max (lo + 1) hi := by omega
    rw [hmax]
    exact ih (fun n t t' hn => hstep n t t' (by omega)) hnext

/-- A property of the state alone. -/
theorem keeps_const {I : σ → Prop}
    (hstep : ∀ n s s', lo ≤ n → n < hi → I s → step n s s' → I s')
    (h : RangeRun step hi lo s s') (hI : I s) : I s' :=
  keeps (I := fun _ => I) hstep h hI

/-- The loop seen through a map of its states, as far as an invariant holds. -/
theorem map {τ : Type*} {R : Nat → τ → τ → Prop} {I : σ → Prop} (f : σ → τ)
    (hstep : ∀ n s s', lo ≤ n → n < hi → I s → step n s s' → R n (f s) (f s') ∧ I s')
    (h : RangeRun step hi lo s s') (hI : I s) : RangeRun R hi lo (f s) (f s') ∧ I s' := by
  induction h with
  | done h => exact ⟨.done h, hI⟩
  | next h h₁ _ ih =>
    obtain ⟨h₁', hI₁⟩ := hstep _ _ _ (le_refl _) h hI h₁
    obtain ⟨hrest, hI'⟩ := ih (fun n t t' hn => hstep n t t' (by omega)) hI₁
    exact ⟨.next h h₁' hrest, hI'⟩

/-- One more step at the end of the range. -/
theorem snoc {s₁ : σ} (hlo : lo ≤ hi) (h : RangeRun step hi lo s s₁) (hlast : step hi s₁ s') :
    RangeRun step (hi + 1) lo s s' := by
  induction h with
  | done hle =>
    obtain rfl := le_antisymm hlo hle
    exact .next (by omega) hlast (.done (le_refl _))
  | next hlt h₁ _ ih => exact .next (by omega) h₁ (ih (by omega) hlast)

/-- Steps that do nothing may stand for a stretch of the range. -/
theorem skip {mid : Nat} (hskip : ∀ n, lo ≤ n → n < mid → step n s s)
    (hmid : lo ≤ mid) (h : RangeRun step hi mid s s') (hle : mid ≤ hi) :
    RangeRun step hi lo s s' := by
  obtain ⟨d, rfl⟩ : ∃ d, mid = lo + d := ⟨mid - lo, by omega⟩
  clear hmid
  induction d generalizing lo with
  | zero => exact h
  | succ d ih =>
    refine .next (by omega) (hskip lo (le_refl _) (by omega)) ?_
    refine ih (fun n hn hn' => hskip n (by omega) (by omega)) ?_ (by omega)
    rwa [show lo + 1 + d = lo + (d + 1) by omega]

end RangeRun

end OsSessional
